import Mathlib.Data.List.Forall2

/-!
# Steps that can fail, one after the other

What it takes for a sequence of steps to succeed, and what the error of a failed sequence says:
the first step that fails decides.
-/

namespace StackMachine

variable {ε α β : Type}

theorem exists_getElem?_of_forall₂ {R : α → β → Prop} {xs : List α} {ys : List β}
    (h : List.Forall₂ R xs ys) {k : Nat} {x : α} (hx : xs[k]? = some x) :
    ∃ y, ys[k]? = some y ∧ R x y := by
  induction h generalizing k with
  | nil => cases hx
  | @cons x' y _ _ hr _ ih =>
    cases k with
    | zero =>
      cases hx
      exact ⟨y, rfl, hr⟩
    | succ k => exact ih hx

theorem exists_mem_of_forall₂ {R : α → β → Prop} {xs : List α} {ys : List β}
    (h : List.Forall₂ R xs ys) {x : α} (hx : x ∈ xs) : ∃ y ∈ ys, R x y := by
  obtain ⟨k, hk⟩ := List.getElem?_of_mem hx
  obtain ⟨y, hy, hr⟩ := exists_getElem?_of_forall₂ h hk
  exact ⟨y, List.mem_of_getElem? hy, hr⟩

theorem forall₂_set {R : α → β → Prop} {xs : List α} {ys : List β} (h : List.Forall₂ R xs ys)
    (k : Nat) {x : α} {y : β} (hr : R x y) : List.Forall₂ R (xs.set k x) (ys.set k y) := by
  induction h generalizing k with
  | nil => exact .nil
  | cons hxy h ih =>
    cases k with
    | zero => exact .cons hr h
    | succ k => exact .cons hxy (ih k)

theorem forall₂_filterMap {f : α → Option β} {R : α → β → Prop} {xs : List α}
    (h : ∀ x ∈ xs, ∃ y, f x = some y ∧ R x y) : List.Forall₂ R xs (xs.filterMap f) := by
  induction xs with
  | nil => exact .nil
  | cons x xs ih =>
    obtain ⟨⟨y, hy, hr⟩, hxs⟩ := List.forall_mem_cons.1 h
    rw [List.filterMap_cons_some hy]
    exact .cons hr (ih hxs)

theorem bind_eq_ok_iff {x : Except ε α} {f : α → Except ε β} {b : β} :
    x >>= f = .ok b ↔ ∃ a, x = .ok a ∧ f a = .ok b := by
  cases x <;> simp [bind, Except.bind]

theorem bind_eq_error_iff {x : Except ε α} {f : α → Except ε β} {e : ε} :
    x >>= f = .error e ↔ x = .error e ∨ ∃ a, x = .ok a ∧ f a = .error e := by
  cases x <;> simp [bind, Except.bind]

theorem run_bind_of_run {σ : Type} {x : StateM σ α} {f : α → StateM σ β} {s s' : σ} {a : α}
    (h : x.run s = (a, s')) : (x >>= f).run s = (f a).run s' := by
  rw [StateT.run_bind, h]
  rfl

theorem mapM_eq_ok_iff {f : α → Except ε β} {xs : List α} {ys : List β} :
    xs.mapM f = .ok ys ↔ List.Forall₂ (fun x y => f x = .ok y) xs ys := by
  induction xs generalizing ys with
  | nil =>
    rw [List.forall₂_nil_left_iff]
    exact ⟨fun h => (Except.ok.inj h).symm, fun h => h ▸ rfl⟩
  | cons x xs ih =>
    rw [List.mapM_cons, bind_eq_ok_iff, List.forall₂_cons_left_iff]
    constructor
    · rintro ⟨y, hy, h⟩
      obtain ⟨zs, hzs, h⟩ := bind_eq_ok_iff.1 h
      exact ⟨y, zs, hy, ih.1 hzs, (Except.ok.inj h).symm⟩
    · rintro ⟨y, zs, hy, hzs, rfl⟩
      exact ⟨y, hy, bind_eq_ok_iff.2 ⟨zs, ih.2 hzs, rfl⟩⟩

/-- Steps that have the same results in the same order are the same sequence. -/
theorem mapM_congr {γ : Type} {f : α → Except ε γ} {g : β → Except ε γ} {xs : List α}
    {ys : List β} (h : xs.map f = ys.map g) : xs.mapM f = ys.mapM g :=
  calc xs.mapM f
    _ = (xs.map f).mapM id := by rw [List.mapM_map]; rfl
    _ = (ys.map g).mapM id := by rw [h]
    _ = ys.mapM g := by rw [List.mapM_map]; rfl

/-- What is done with the error of a sequence can be done with that of each step. -/
theorem mapM_mapError {ε' : Type} {f : α → Except ε β} {g : ε → ε'} (xs : List α) :
    xs.mapM (fun x => (f x).mapError g) = (xs.mapM f).mapError g := by
  induction xs with
  | nil => rfl
  | cons x xs ih =>
    rw [List.mapM_cons, List.mapM_cons, ih]
    cases f x with
    | error e => rfl
    | ok y => cases xs.mapM f <;> rfl

theorem mapM_eq_error_iff {f : α → Except ε β} {xs : List α} {e : ε} :
    xs.mapM f = .error e ↔
      ∃ before x after, xs = before ++ x :: after ∧ (∀ y ∈ before, ∃ b, f y = .ok b) ∧
        f x = .error e := by
  induction xs with
  | nil => simp [pure, Except.pure]
  | cons x xs ih =>
    rw [List.mapM_cons, bind_eq_error_iff]
    constructor
    · rintro (hx | ⟨b, hb, h⟩)
      · exact ⟨[], x, xs, rfl, by simp, hx⟩
      · rcases bind_eq_error_iff.1 h with hxs | ⟨bs, -, h⟩
        · obtain ⟨before, y, after, rfl, hbefore, hy⟩ := ih.1 hxs
          refine ⟨x :: before, y, after, rfl, ?_, hy⟩
          rintro z (_ | ⟨_, hz⟩)
          exacts [⟨b, hb⟩, hbefore z hz]
        · cases h
    · rintro ⟨_ | ⟨z, before⟩, y, after, hxs, hbefore, hy⟩
      · cases hxs
        exact .inl hy
      · cases hxs
        obtain ⟨b, hb⟩ := hbefore x (.head _)
        have h := ih.2 ⟨before, y, after, rfl, fun z hz => hbefore z (.tail _ hz), hy⟩
        exact .inr ⟨b, hb, bind_eq_error_iff.2 (.inl h)⟩

end StackMachine
