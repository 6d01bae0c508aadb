import StackMachine.ProgramFile.Directory
import StackMachine.Proofs.ProgramFile.RoundTrip
import StackMachine.Proofs.Sequencing

/-!
# Files that hold what was stored

`FileSystem.Stores` says what is relied on of a file system: opening a file changes nothing, and a
file that was stored can be opened and read to its end. Then a program that was saved is loaded
again (`FileSystem.Stores.load_of_holds`).

A directory is such a file system (`Directory.stores_fileSystem`). A path leads through directories
until its last name, so writing a file does not lead it anywhere else.
-/

namespace StackMachine

namespace FileSystem

variable {σ : Type} {fs : FileSystem (StateM σ)} {s : σ} {path : String}

/-- The file of a path can be read to its end, and these are its bytes. -/
def Holds (fs : FileSystem (StateM σ)) (s : σ) (path : String) (content : List UInt8) : Prop :=
  ∃ source : Source, ((fs.openFile path).run s).1 = .ok source ∧ source.bytes = content ∧
    source.failure = none

/-- The file system stores what is written. -/
structure Stores (fs : FileSystem (StateM σ)) : Prop where
  /-- Opening a file changes no file. -/
  snd_openFile : ∀ path s, ((fs.openFile path).run s).2 = s
  /-- A file that was stored has the content that was written. -/
  holds_of_storeFile : ∀ path content s s',
    (fs.storeFile path content).run s = (.ok (), s') → fs.Holds s' path content

theorem Stores.openFile_of_holds {content : List UInt8} (hfs : fs.Stores)
    (h : fs.Holds s path content) : ∃ source : Source,
      (fs.openFile path).run s = (.ok source, s) ∧ source.bytes = content ∧
        source.failure = none := by
  obtain ⟨source, hopen, hread⟩ := h
  exact ⟨source, Prod.ext hopen (hfs.snd_openFile path s), hread⟩

/-- A program that was written to a file is loaded from it. -/
theorem Stores.load_of_holds {code : Code} (hfs : fs.Stores) (hc : code.size ≤ 2 ^ 32 - 1)
    (h : fs.Holds s path (fileBytes code)) :
    (fs.load path).run s = (.ok { header := .ofLength (.ofNat code.size), code }, s) := by
  obtain ⟨source, hopen, hbytes, hfailure⟩ := hfs.openFile_of_holds h
  rw [load, run_bind_of_run hopen, ← readProgram_of_fileBytes hc hfailure hbytes]
  rfl

/-- Saving a program stores the bytes of its file. -/
theorem run_save {code : Code} (hc : code.size ≤ 2 ^ 32 - 1) :
    (fs.save path code).run s = (fs.storeFile path (fileBytes code)).run s := by
  rw [save, writeProgram_unlimited hc]
  rcases hstore : (fs.storeFile path (fileBytes code)).run s with ⟨_ | _, s'⟩ <;>
    exact run_bind_of_run hstore

/-- A code that no header can tell the length of is not saved. -/
theorem run_save_of_lt {code : Code} (hc : 2 ^ 32 - 1 < code.size) :
    ∃ e s', (fs.save path code).run s = (.error e, s') := by
  have hlong : 0x100000000 ≤ code.size := by omega
  rw [save, writeProgram, if_pos hlong]
  rcases hstore : (fs.storeFile path Sink.unlimited.taken).run s with ⟨e | _, s'⟩
  · exact ⟨e, s', run_bind_of_run hstore⟩
  · exact ⟨.tooLong code.size, s', run_bind_of_run hstore⟩

end FileSystem

namespace Directory

variable {d : Directory} {name : String} {content : List UInt8}

@[simp] theorem content?_put_self : (d.put name content).content? name = some content := by
  simp [content?, put]

/-! ### Places -/

/-- A directory, from which a path can go on. -/
def Place.IsDirectory : Place → Prop
  | .current | .outside => True
  | .file _ | .free _ => False

/-- The place of the file of a name, whether there is one or not. -/
def Place.IsNamed (name : String) (place : Place) : Prop := place = .file name ∨ place = .free name

theorem Place.isDirectory_or_isNamed (place : Place) :
    place.IsDirectory ∨ ∃ name, place.IsNamed name := by
  cases place with
  | current | outside => exact .inl trivial
  | file name => exact .inr ⟨name, .inl rfl⟩
  | free name => exact .inr ⟨name, .inr rfl⟩

theorem Place.IsNamed.not_isDirectory {place : Place} (h : place.IsNamed name) :
    ¬ place.IsDirectory := by
  rcases h with rfl | rfl <;> exact id

/-- From one directory to another, a path goes without looking at the files. -/
theorem enter_of_isDirectory {place next : Place} {step : String}
    (h : d.enter place step = .ok next) (hnext : next.IsDirectory) (other : Directory) :
    other.enter place step = .ok next := by
  cases place with
  | file | free => cases h
  | outside => exact h
  | current =>
    simp only [enter] at h ⊢
    split at h
    next hdot => rw [if_pos hdot, h]
    next hdot =>
      rw [if_neg hdot]
      split at h
      next hup => rw [if_pos hup, h]
      next hup =>
        exfalso
        split at h
        · cases h
        · split at h <;> (cases h; exact hnext)

/-- A path that comes to a name comes to its file once that is there. -/
theorem enter_put {place next : Place} {step : String} (h : d.enter place step = .ok next)
    (hnext : next.IsNamed name) : (d.put name content).enter place step = .ok (.file name) := by
  cases place with
  | file | free => cases h
  | outside =>
    exfalso
    simp only [enter] at h
    split at h
    · cases h
      exact hnext.not_isDirectory trivial
    · split at h <;> cases h
  | current =>
    simp only [enter] at h ⊢
    split at h
    · cases h
      exact absurd trivial hnext.not_isDirectory
    next hdot =>
      split at h
      · cases h
        exact absurd trivial hnext.not_isDirectory
      next hup =>
        split at h
        · cases h
        next hshort =>
          obtain rfl : step = name := by
            split at h
            · cases h
              exact hnext.elim (fun hn => Place.file.inj hn) fun hn => by cases hn
            · cases h
              exact hnext.elim (fun hn => by cases hn) fun hn => Place.free.inj hn
          rw [if_neg hdot, if_neg hup, if_neg hshort, content?_put_self]
          rfl

/-- No path goes on from a file. -/
theorem enter_of_isNamed {place : Place} (h : place.IsNamed name) (step : String) :
    ∃ e, d.enter place step = .error e := by
  rcases h with rfl | rfl
  · exact ⟨_, rfl⟩
  · exact ⟨_, rfl⟩

/-! ### Paths -/

theorem foldlM_enter_put {names : List String} {place next : Place} (hplace : place.IsDirectory)
    (h : names.foldlM d.enter place = .ok next) (hnext : next.IsNamed name) :
    names.foldlM (d.put name content).enter place = .ok (.file name) := by
  induction names generalizing place with
  | nil =>
    cases h
    exact absurd hplace hnext.not_isDirectory
  | cons step names ih =>
    rw [List.foldlM_cons, bind_eq_ok_iff] at h ⊢
    obtain ⟨middle, hstep, hrest⟩ := h
    rcases middle.isDirectory_or_isNamed with hmiddle | ⟨n, hmiddle⟩
    · exact ⟨middle, enter_of_isDirectory hstep hmiddle _, ih hmiddle hrest⟩
    · -- The path ends at the first name that is not that of a directory.
      cases names with
      | nil =>
        cases hrest
        exact ⟨.file name, enter_put hstep hnext, rfl⟩
      | cons step' names =>
        obtain ⟨e, he⟩ := enter_of_isNamed (d := d) hmiddle step'
        rw [List.foldlM_cons, he] at hrest
        cases hrest

theorem isDirectory_origin (names : List String) : (origin names).IsDirectory := by
  unfold origin
  split <;> trivial

/-- A path that leads to a name leads to its file once that is there. -/
theorem resolve_put {path : String} {place : Place} (h : d.resolve path = .ok place)
    (hplace : place.IsNamed name) : (d.put name content).resolve path = .ok (.file name) := by
  unfold resolve at h ⊢
  obtain ⟨names, hnames, hpath⟩ := bind_eq_ok_iff.1 h
  exact bind_eq_ok_iff.2 ⟨names, hnames,
    foldlM_enter_put (isDirectory_origin names) hpath hplace⟩

/-- Where a file can be created the path leads. -/
theorem resolve_of_resolveNew {path : String} {place : Place} (h : d.resolveNew path = .ok place) :
    d.resolve path = .ok place := by
  unfold resolveNew at h
  obtain ⟨names, -, hpath⟩ := bind_eq_ok_iff.1 h
  split at hpath
  · split at hpath
    · obtain ⟨-, -, hthrow⟩ := bind_eq_ok_iff.1 hpath
      cases hthrow
    · exact hpath
  · exact hpath

/-- A file that was stored is found again. -/
theorem openFile_of_storeFile {path : String} {d' : Directory}
    (h : d.storeFile path content = .ok d') : d'.openFile path = .ok (.ofBytes content) := by
  have hput {place : Place} {name : String} (hnew : d.resolveNew path = .ok place)
      (hplace : place.IsNamed name) :
      (d.put name content).openFile path = .ok (.ofBytes content) := by
    simp only [openFile, resolve_put (resolve_of_resolveNew hnew) hplace, content?_put_self,
      Option.getD_some]
  unfold storeFile at h
  split at h
  · cases h
  · next name hnew =>
    cases h
    exact hput hnew (.inl rfl)
  · next name hnew =>
    cases h
    exact hput hnew (.inr rfl)
  · cases h
  · cases h

theorem run_storeFile (d : Directory) (path : String) (content : List UInt8) :
    (fileSystem.storeFile path content).run d =
      match d.storeFile path content with
      | .ok d' => (.ok (), d')
      | .error e => (.error e, d) := by
  show StateT.run ((match d.storeFile path content with
    | .ok d' => do set d'; return .ok ()
    | .error e => return .error e : StateM Directory (Except SaveError Unit))) d = _
  cases d.storeFile path content <;> rfl

/-- **A directory stores what is written.** -/
theorem stores_fileSystem : fileSystem.Stores where
  snd_openFile _ _ := rfl
  holds_of_storeFile path content d d' h := by
    rw [run_storeFile] at h
    split at h
    next hd =>
      cases h
      refine ⟨.ofBytes content, ?_, by simp [Source.ofBytes, Source.bytes], rfl⟩
      rw [← openFile_of_storeFile hd]
      rfl
    · cases h

end Directory

end StackMachine
