import Mathlib
import StackMachine.Command.Basic
import StackMachine.Proofs.Assembly.Spelling
import StackMachine.Proofs.Assembly.Size
import StackMachine.Proofs.Hexadecimal
import StackMachine.Proofs.Machine.Log
import StackMachine.Proofs.ProgramFile.Directory

/-!
# The two ways to run a code

A source can be assembled into a file, and the file run; or the bytes of its code can be spelled in
hexadecimal, and run from there. On a file system that stores what is written, both ways print the
same and exit with the same status (`commands_agree`), and the listing of the file is what a run
shows in front of its outcome. A source that is rejected changes no file: the output is not touched
before there is a code to write.

There are three limits to that (`status_beyond_limits`). No request has an empty path, a code with
`2 ^ 32` bytes or more has no file, and a source is not rejected but breaks the program off when it
makes a number leave 64 bits.
-/

namespace StackMachine.Command

open Text

variable {σ : Type} {fs : FileSystem (StateM σ)} {s : σ} {turns : Nat} {code : Code}

/-- What a request comes to, and the files that it leaves. -/
def Request.effect (turns : Nat) (fs : FileSystem (StateM σ)) (r : Request) (s : σ) :
    Response × σ :=
  (r.perform turns fs).run s

/-! ### Running a code -/

/-- A text spells a code in hexadecimal: two digits for each byte, in either case, with blanks
anywhere. -/
def Spells (hex : String) (code : Code) : Prop :=
  (removeBlanks hex.toList).map Char.toLower = Hexadecimal.ofBytes code.toList

instance (hex : String) (code : Code) : Decidable (Spells hex code) :=
  inferInstanceAs (Decidable (_ = _))

/-- A code is read from each text that spells it. -/
theorem bytesOfHex_of_spells {hex : String} (h : Spells hex code) :
    bytesOfHex hex = .ok code.toList := by
  have hbytes : ((removeBlanks hex.toList).flatMap String.utf8EncodeChar).map
      (fun b => Char.ofNat b.toNat) = removeBlanks hex.toList := by
    rw [List.map_flatMap]
    refine (List.flatMap_congr fun c hc => ?_).trans (List.flatMap_singleton' _)
    exact forall_ascii
      (P := fun c => (String.utf8EncodeChar c).map (fun b => Char.ofNat b.toNat) = [c])
      (by decide +kernel) (Hexadecimal.lt_of_map_toLower h hc)
  rw [bytesOfHex, hbytes]
  exact Hexadecimal.parse_of_map_toLower h

/-- The status of a run is 0 exactly if the run completes. -/
theorem status_runCode (options : RunOptions) :
    (runCode turns options code).status = 0 ↔
      ∃ e, (Executor.ofLimits options.limits).execute? turns code = some e ∧
        e.outcome.isCompleted = true := by
  have houtcome := (Executor.ofLimits options.limits).map_outcome_setDebug options.debug turns code
  unfold runCode
  cases hon : ((Executor.ofLimits options.limits).setDebug options.debug).execute? turns code with
  | none =>
    rw [hon, eq_comm, Option.map_none, Option.map_eq_none_iff] at houtcome
    simp [houtcome, Response.error]
  | some on =>
    rw [hon, eq_comm, Option.map_some, Option.map_eq_some_iff] at houtcome
    obtain ⟨e, he, heq⟩ := houtcome
    simp [he, heq]

/-- Without a listing, a run that ends prints its outcome and nothing else. -/
theorem output_runCode {options : RunOptions} {e : Execution}
    (he : (Executor.ofLimits options.limits).execute? turns code = some e) :
    (runCode turns { options with disasm := false } code).output =
      outcomeText options e.outcome := by
  have houtcome := (Executor.ofLimits options.limits).map_outcome_setDebug options.debug turns code
  rw [he, Option.map_some, Option.map_eq_some_iff] at houtcome
  obtain ⟨on, hon, heq⟩ := houtcome
  simp [runCode, hon, heq, outcomeText]

/-- A listing is shown in front of what a run shows without it. -/
theorem output_runCode_disasm (options : RunOptions) :
    (runCode turns { options with disasm := true } code).output =
      listing code ++ (runCode turns { options with disasm := false } code).output := by
  unfold runCode
  cases ((Executor.ofLimits options.limits).setDebug options.debug).execute? turns code <;>
    simp [outcomeText]

/-! ### Requests -/

theorem effect_exec {hex : String} (h : Spells hex code) (options : RunOptions) :
    (Request.exec hex options).effect turns fs s = (runCode turns options code, s) := by
  simp only [Request.effect, Request.perform, bytesOfHex_of_spells h]
  rfl

/-- A file that is run shows what its code shows; on the side, more is told of it. -/
theorem effect_run {file : String} (hfs : fs.Stores) (hc : code.size ≤ 2 ^ 32 - 1)
    (h : fs.Holds s file (fileBytes code)) (options : RunOptions) :
    (Request.run file options).effect turns fs s =
      (runProgram turns options { header := .ofLength (.ofNat code.size), code }, s) := by
  unfold Request.effect Request.perform
  rw [run_bind_of_run (hfs.load_of_holds hc h)]
  rfl

theorem effect_disasm {file : String} (hfs : fs.Stores) (hc : code.size ≤ 2 ^ 32 - 1)
    (h : fs.Holds s file (fileBytes code)) :
    (Request.disasm file).effect turns fs s =
      ({ status := 0, output := listing code, diagnostics := "" }, s) := by
  unfold Request.effect Request.perform
  rw [run_bind_of_run (hfs.load_of_holds hc h)]
  rfl

theorem readText_toUTF8 {source : Source} {text : String} (hf : source.failure = none)
    (hb : source.bytes = text.toUTF8.data.toList) : readText source = .ok text := by
  have hall : source.readAll = .ok text.toUTF8.data.toList := by
    simp only [Source.readAll, hf, hb]
  have htext : String.fromUTF8? ⟨text.toUTF8.data.toList.toArray⟩ = some text := by
    simp [String.fromUTF8?, String.fromUTF8, text.isValidUTF8]
  simp only [readText, hall, htext, bind, Except.bind]
  rfl

/-- To assemble a source is to read it, and then to save its code, if it has one. -/
theorem effect_asm {source output text : String} (hfs : fs.Stores)
    (hs : fs.Holds s source text.toUTF8.data.toList) :
    (Request.asm source output).effect turns fs s =
      match Assembly.assemble text with
      | .error e => (Response.ofAssemblyError e, s)
      | .ok code =>
        match (fs.save output code).run s with
        | (.error e, s') => (Response.error e.message, s')
        | (.ok _, s') =>
          ({ status := 0
             output := "wrote " ++ toString code.size ++ " bytes of code to " ++ output ++ "\n"
             diagnostics := "" }, s') := by
  obtain ⟨file, hopen, hbytes, hfailure⟩ := hfs.openFile_of_holds hs
  have htext : (Except.ok file).bind readText = .ok text := readText_toUTF8 hfailure hbytes
  unfold Request.effect Request.perform assembleFile
  rw [run_bind_of_run hopen]
  simp only [htext]
  cases Assembly.assemble text with
  | error e => rfl
  | ok code =>
    simp only
    rcases hsave : (fs.save output code).run s with ⟨_ | _, s'⟩ <;> exact run_bind_of_run hsave

/-- A source without a code is told about before any file is changed. -/
theorem effect_asm_of_error {source output text : String} {e : Assembly.Error} (hfs : fs.Stores)
    (hs : fs.Holds s source text.toUTF8.data.toList) (he : Assembly.assemble text = .error e) :
    (Request.asm source output).effect turns fs s = (Response.ofAssemblyError e, s) := by
  rw [effect_asm hfs hs, he]

theorem ofAssemblyError_of_ne_overflow {e : Assembly.Error}
    (h : ∀ operation, e.problem ≠ .overflow operation) :
    Response.ofAssemblyError e = .error e.message := by
  unfold Response.ofAssemblyError
  split
  next operation hproblem => exact absurd hproblem (h operation)
  next => rfl

/-- A code is assembled into a file if a header can tell its length and the file is stored. -/
theorem effect_asm_of_storeFile {source output text : String} {s' : σ} (hfs : fs.Stores)
    (hs : fs.Holds s source text.toUTF8.data.toList) (hcode : Assembly.assemble text = .ok code)
    (hc : code.size ≤ 2 ^ 32 - 1)
    (hstore : (fs.storeFile output (fileBytes code)).run s = (.ok (), s')) :
    (Request.asm source output).effect turns fs s =
      ({ status := 0
         output := "wrote " ++ toString code.size ++ " bytes of code to " ++ output ++ "\n"
         diagnostics := "" }, s') := by
  simp only [effect_asm hfs hs, hcode, FileSystem.run_save hc, hstore]

/-- A code that is too long for the header of a file is an error, whatever becomes of the file. -/
theorem status_asm_of_lt {source output text : String} (hfs : fs.Stores)
    (hs : fs.Holds s source text.toUTF8.data.toList) (hcode : Assembly.assemble text = .ok code)
    (hlong : 2 ^ 32 - 1 < code.size) :
    ((Request.asm source output).effect turns fs s).1.status = 1 := by
  obtain ⟨e, s', hsave⟩ : ∃ e s', (fs.save output code).run s = (.error e, s') :=
    FileSystem.run_save_of_lt hlong
  simp only [effect_asm hfs hs, hcode, hsave]
  rfl

/-- The status of an assembly is 0 in no other case. -/
theorem status_asm {source output text : String} (hfs : fs.Stores)
    (hs : fs.Holds s source text.toUTF8.data.toList) (hcode : Assembly.assemble text = .ok code) :
    ((Request.asm source output).effect turns fs s).1.status = 0 ↔
      code.size ≤ 2 ^ 32 - 1 ∧
        ∃ s', (fs.storeFile output (fileBytes code)).run s = (.ok (), s') := by
  constructor
  · intro hstatus
    rcases Nat.lt_or_ge (2 ^ 32 - 1) code.size with hlong | hc
    · cases (status_asm_of_lt hfs hs hcode hlong).symm.trans hstatus
    · simp only [effect_asm hfs hs, hcode, FileSystem.run_save hc] at hstatus
      rcases hstore : (fs.storeFile output (fileBytes code)).run s with ⟨e | _, s'⟩
      · rw [hstore] at hstatus
        cases hstatus
      · exact ⟨hc, s', rfl⟩
  · rintro ⟨hc, s', hstore⟩
    rw [effect_asm_of_storeFile hfs hs hcode hc hstore]

/-! ### The two ways -/

/-- The commands agree about the program of a file, which has this code. -/
structure Agree (turns : Nat) (fs : FileSystem (StateM σ)) (s : σ) (file : String) (code : Code) :
    Prop where
  /-- To run the file is to run each text that spells its code: both show the same and have the same
  status. Only what is told on the side can differ, as no file is loaded for the text. -/
  run_eq_exec : ∀ hex, Spells hex code → ∀ (options : RunOptions) (t : σ),
    ((Request.run file options).effect turns fs s).1.output =
        ((Request.exec hex options).effect turns fs t).1.output ∧
      ((Request.run file options).effect turns fs s).1.status =
        ((Request.exec hex options).effect turns fs t).1.status
  /-- To run the file changes no file. -/
  run_keeps : ∀ options : RunOptions, ((Request.run file options).effect turns fs s).2 = s
  /-- A listing can always be shown. -/
  status_disasm : ((Request.disasm file).effect turns fs s).1.status = 0
  /-- A run that shows the listing shows that of the file, and then the same as without it. -/
  output_disasm : ∀ options : RunOptions,
    ((Request.run file { options with disasm := true }).effect turns fs s).1.output =
      ((Request.disasm file).effect turns fs s).1.output ++
        ((Request.run file { options with disasm := false }).effect turns fs s).1.output
  /-- Without the listing, a run that ends shows its outcome and nothing else. -/
  output_run : ∀ (options : RunOptions) (e : Execution),
    (Executor.ofLimits options.limits).execute? turns code = some e →
      ((Request.run file { options with disasm := false }).effect turns fs s).1.output =
        outcomeText options e.outcome
  /-- The status of a run is 0 exactly if the run completes. -/
  status_run : ∀ options : RunOptions,
    ((Request.run file options).effect turns fs s).1.status = 0 ↔
      ∃ e, (Executor.ofLimits options.limits).execute? turns code = some e ∧
        e.outcome.isCompleted = true

theorem agree_of_holds {file : String} (hfs : fs.Stores) (hc : code.size ≤ 2 ^ 32 - 1)
    (h : fs.Holds s file (fileBytes code)) : Agree turns fs s file code where
  run_eq_exec hex hhex options t := by
    rw [effect_run hfs hc h, effect_exec hhex]
    exact ⟨rfl, rfl⟩
  run_keeps options := by
    rw [effect_run hfs hc h]
  status_disasm := by
    rw [effect_disasm hfs hc h]
  output_disasm options := by
    rw [effect_run hfs hc h, effect_disasm hfs hc h, effect_run hfs hc h]
    exact output_runCode_disasm options
  output_run options e he := by
    rw [effect_run hfs hc h]
    exact output_runCode he
  status_run options := by
    rw [effect_run hfs hc h]
    exact status_runCode options

/-! ### Assembly into a directory -/

/-- A directory with a source, and a file where its output is to be. -/
def directoryOf (text : String) : Directory :=
  { files := [("a", text.toUTF8.data.toList), ("b", [1, 2, 3])] }

theorem holds_directoryOf (text : String) :
    Directory.fileSystem.Holds (directoryOf text) "a" text.toUTF8.data.toList := by
  have hpath : "a".splitOn "/" = ["a"] := by cbv
  have hnames : Directory.namesOf "a" = .ok ["a"] := by
    rw [Directory.namesOf, hpath]
    decide +kernel
  have hopen : (directoryOf text).openFile "a" = .ok (.ofBytes text.toUTF8.data.toList) := by
    rw [Directory.openFile, Directory.resolve, hnames]
    rfl
  exact ⟨.ofBytes text.toUTF8.data.toList, hopen, by simp [Source.ofBytes, Source.bytes], rfl⟩

theorem storeFile_directoryOf (text : String) (content : List UInt8) :
    (Directory.fileSystem.storeFile "b" content).run (directoryOf text) =
      (.ok (), (directoryOf text).put "b" content) := by
  have hpath : "b".splitOn "/" = ["b"] := by cbv
  have hnames : Directory.namesOf "b" = .ok ["b"] := by
    rw [Directory.namesOf, hpath]
    decide +kernel
  have hnew : (directoryOf text).resolveNew "b" = .ok (.file "b") := by
    rw [Directory.resolveNew, Directory.resolve, hnames]
    rfl
  rw [Directory.run_storeFile, Directory.storeFile, hnew]

/-! ### The commands -/

/-- **The commands agree.** Let the file system store what is written, and let a file hold a source.

If the source is rejected, and not because a number leaves 64 bits, then the status of the assembly
is 1, nothing is printed, and all files are as before. If it assembles, then the status is 0 exactly
if the code has a file and this can be stored. Only the code of a source with `2 ^ 32` characters or
more can be too long for the header of a file. The output then holds the file, and from there on all
commands agree about it. -/
theorem commands_agree {source text : String} (hfs : fs.Stores)
    (hs : fs.Holds s source text.toUTF8.data.toList) (turns : Nat) (output : String) :
    (∀ e, Assembly.assemble text = .error e → (∀ operation, e.problem ≠ .overflow operation) →
      (Request.asm source output).effect turns fs s = (Response.error e.message, s)) ∧
    ∀ code, Assembly.assemble text = .ok code →
      code.size ≤ text.length ∧
      (((Request.asm source output).effect turns fs s).1.status = 0 ↔
        code.size ≤ 2 ^ 32 - 1 ∧
          ∃ s', (fs.storeFile output (fileBytes code)).run s = (.ok (), s')) ∧
      ∀ response s', (Request.asm source output).effect turns fs s = (response, s') →
        response.status = 0 →
          fs.Holds s' output (fileBytes code) ∧ Agree turns fs s' output code := by
  refine ⟨?_, fun code hcode =>
    ⟨Assembly.size_le_length hcode, status_asm hfs hs hcode, ?_⟩⟩
  · intro e he hne
    rw [effect_asm_of_error hfs hs he, ofAssemblyError_of_ne_overflow hne]
  intro response s' hasm hstatus
  have hstatus' : ((Request.asm source output).effect turns fs s).1.status = 0 := by
    rw [hasm, hstatus]
  obtain ⟨hc, s'', hstore⟩ := (status_asm hfs hs hcode).1 hstatus'
  rw [effect_asm_of_storeFile hfs hs hcode hc hstore] at hasm
  cases hasm
  have hfile := hfs.holds_of_storeFile output _ s s' hstore
  exact ⟨hfile, agree_of_holds hfs hc hfile⟩

/-- A source without an operand leaves the file that is there, and one with it puts another in its
place, which is run as its code is from digits of both cases with blanks between them. -/
theorem commands_agree_directoryOf :
    (Request.asm "a" "b").effect 9 Directory.fileSystem (directoryOf "bipush") =
      (Response.error (Assembly.Error.message ⟨1, .missingOperand .bipush⟩), directoryOf "bipush") ∧
    ∃ d, ((Request.asm "a" "b").effect 9 Directory.fileSystem
        (directoryOf "bipush 5\nireturn")).2 = d ∧
      Directory.fileSystem.Holds d "b" (fileBytes #[0x10, 5, 0xac]) ∧
      ∀ options, ((Request.run "b" options).effect 9 Directory.fileSystem d).1.output =
        ((Request.exec "1 0 05\taC" options).effect 9 Directory.fileSystem d).1.output := by
  constructor
  · obtain ⟨herror, -⟩ := commands_agree Directory.stores_fileSystem
      (holds_directoryOf "bipush") 9 "b"
    exact herror { line := 1, problem := .missingOperand .bipush } (by decide +kernel) nofun
  · obtain ⟨-, hok⟩ := commands_agree Directory.stores_fileSystem
      (holds_directoryOf "bipush 5\nireturn") 9 "b"
    obtain ⟨-, hstatus, hagree⟩ := hok #[0x10, 5, 0xac] (by decide +kernel)
    obtain ⟨hfile, hrun⟩ := hagree _ _ rfl
      (hstatus.2 ⟨by decide, _, storeFile_directoryOf _ _⟩)
    have hspells : Spells "1 0 05\taC" #[0x10, 5, 0xac] := by decide +kernel
    exact ⟨_, rfl, hfile, fun options => (hrun.run_eq_exec _ hspells options _).1⟩

/-! ### Beyond the limits -/

/-- The source of a code with as many bytes as instructions. -/
def nops (n : Nat) : String := Assembly.spelled (List.replicate n (.nop, .plain))

theorem assemble_nops {n : Nat} (hn : n ≠ 0) (hlt : n < 2 ^ 62) :
    ∃ code, Assembly.assemble (nops n) = .ok code ∧ code.size = n := by
  have hall : ∀ i ∈ (List.replicate n (Instruction.nop, Assembly.Spelling.plain)).map Prod.fst,
      i.Encodable := by
    intro i hi
    rw [List.map_replicate] at hi
    rw [List.eq_of_mem_replicate hi]
    trivial
  have hsize : totalSize ((List.replicate n (Instruction.nop, Assembly.Spelling.plain)).map
      Prod.fst) = n := by
    rw [List.map_replicate, totalSize, List.map_replicate, List.sum_replicate_nat]
    exact Nat.mul_one n
  have hcode := Instruction.encodeAll_eq_ok_iff.2 ⟨hall, rfl⟩
  refine ⟨_, Assembly.assemble_spelled_of_lt hcode ?_ (hsize.symm ▸ hlt), ?_⟩
  · rwa [Ne, List.replicate_eq_nil_iff]
  · rw [List.size_toArray, length_flatMap_bytes, hsize]

/-- **The limits of the commands.** A branch over a distance that 64 bits do not hold breaks the
program off. Without a path for the output there is no request. A code can be too long for a file,
though one could be stored. -/
theorem status_beyond_limits :
    (∃ e, Assembly.assemble "9223372036854775807: goto -2" = .error e ∧
      ((respond 9 Directory.fileSystem ["asm", "a", "-o", "b"]).run
        (directoryOf "9223372036854775807: goto -2")).1.status = 101) ∧
    (∃ e, Assembly.assemble "bipush" = .error e ∧
      ((respond 9 Directory.fileSystem ["asm", "a", "-o", ""]).run
        (directoryOf "bipush")).1.status = 2) ∧
    ∃ code, Assembly.assemble (nops (2 ^ 32)) = .ok code ∧
      (∃ d, (Directory.fileSystem.storeFile "b" (fileBytes code)).run
        (directoryOf (nops (2 ^ 32))) = (.ok (), d)) ∧
      ((respond 9 Directory.fileSystem ["asm", "a", "-o", "b"]).run
        (directoryOf (nops (2 ^ 32)))).1.status = 1 := by
  have hrequest : Request.parse? ["asm", "a", "-o", "b"] = some (.asm "a" "b") := by decide +kernel
  have hnone : Request.parse? ["asm", "a", "-o", ""] = none := by decide +kernel
  have hrespond (d : Directory) : (respond 9 Directory.fileSystem ["asm", "a", "-o", "b"]).run d =
      (Request.asm "a" "b").effect 9 Directory.fileSystem d := by
    rw [respond, hrequest]
    rfl
  have hoverflow : Assembly.assemble "9223372036854775807: goto -2" =
      .error { line := 1, problem := .overflow .subtraction } := by decide +kernel
  refine ⟨⟨_, hoverflow, ?_⟩, ⟨⟨1, .missingOperand .bipush⟩, by decide +kernel, ?_⟩, ?_⟩
  · rw [hrespond,
      effect_asm_of_error Directory.stores_fileSystem (holds_directoryOf _) hoverflow]
    rfl
  · rw [respond, hnone]
    rfl
  · obtain ⟨code, hcode, hsize⟩ := assemble_nops (n := 2 ^ 32) (by decide) (by decide)
    refine ⟨code, hcode, ⟨_, storeFile_directoryOf _ _⟩, ?_⟩
    rw [hrespond]
    exact status_asm_of_lt Directory.stores_fileSystem (holds_directoryOf _) hcode (by omega)

end StackMachine.Command
