import StackMachine.ProgramFile.Basic

/-!
# What a source hands out

Readers of a source see its bytes and not the pieces that these come in. A read that finds enough
bytes takes them and leaves the others (`Source.take_of_le`), so what happens behind them is of no
matter; if there are too few, the read takes them all (`Source.take_of_lt`) or, from a source that
fails, comes to the failure (`Source.take_of_failure_eq_some`). Reading a code chunk by chunk comes
to the same (`readCode_of_failure_eq_none`, `readCode_of_failure_eq_some`), wherever the chunks and
the pieces are cut.
-/

namespace StackMachine

namespace Source

variable {s : Source} {n : Nat}

/-! ### One read -/

theorem takeGo_of_le {pieces : List (List UInt8)} (done : List (List UInt8))
    (h : n ≤ pieces.flatten.length) :
    ∃ rest, take.go s pieces n done =
        .ok (done.reverse.flatten ++ pieces.flatten.take n, { s with pieces := rest }) ∧
      rest.flatten = pieces.flatten.drop n := by
  induction pieces generalizing n done with
  | nil =>
    obtain rfl : n = 0 := Nat.le_zero.1 h
    exact ⟨[], by simp [take.go], rfl⟩
  | cons piece pieces ih =>
    cases n with
    | zero => exact ⟨piece :: pieces, by simp [take.go], rfl⟩
    | succ n =>
      simp only [List.flatten_cons, List.length_append] at h
      unfold take.go
      split
      · next hle =>
        obtain ⟨rest, hgo, hrest⟩ := ih (piece :: done) (n := n + 1 - piece.length) (by omega)
        refine ⟨rest, ?_, ?_⟩
        · rw [hgo]
          simp [List.take_append, List.take_of_length_le hle]
        · rw [hrest]
          simp [List.drop_append, List.drop_of_length_le hle]
      · next hgt =>
        have hle : n + 1 ≤ piece.length := by omega
        refine ⟨piece.drop (n + 1) :: pieces, ?_, ?_⟩
        · simp [List.take_append_of_le_length hle]
        · simp [List.drop_append_of_le_length hle]

theorem takeGo_of_lt {pieces : List (List UInt8)} (done : List (List UInt8))
    (h : pieces.flatten.length < n) :
    take.go s pieces n done =
      match s.failure with
      | none => .ok (done.reverse.flatten ++ pieces.flatten, { s with pieces := [] })
      | some e => .error e := by
  induction pieces generalizing n done with
  | nil =>
    cases n with
    | zero => cases h
    | succ n => cases hf : s.failure <;> simp [take.go, hf]
  | cons piece pieces ih =>
    cases n with
    | zero => cases h
    | succ n =>
      simp only [List.flatten_cons, List.length_append] at h
      unfold take.go
      rw [if_pos (by omega), ih (piece :: done) (by omega)]
      simp

/-- A read that finds enough bytes takes the first of them. -/
theorem take_of_le (h : n ≤ s.bytes.length) :
    ∃ rest, s.take n = .ok (s.bytes.take n, rest) ∧ rest.bytes = s.bytes.drop n ∧
      rest.failure = s.failure := by
  obtain ⟨rest, hgo, hrest⟩ := takeGo_of_le (s := s) [] h
  exact ⟨_, hgo, hrest, rfl⟩

/-- A read that does not find enough bytes takes all there are. -/
theorem take_of_lt (hf : s.failure = none) (h : s.bytes.length < n) :
    s.take n = .ok (s.bytes, { s with pieces := [] }) :=
  (takeGo_of_lt [] h).trans (by rw [hf]; rfl)

/-- A read that does not find enough bytes comes to the failure of the source. -/
theorem take_of_failure_eq_some {e : DeviceError} (hf : s.failure = some e)
    (h : s.bytes.length < n) : s.take n = .error e :=
  (takeGo_of_lt [] h).trans (by rw [hf])

/-- A read from a source that does not fail takes bytes as far as there are any. -/
theorem take_of_failure_eq_none (hf : s.failure = none) (n : Nat) :
    ∃ rest, s.take n = .ok (s.bytes.take n, rest) ∧ rest.bytes = s.bytes.drop n ∧
      rest.failure = none := by
  rcases Nat.lt_or_ge s.bytes.length n with hlt | hle
  · rw [List.take_of_length_le (Nat.le_of_lt hlt), List.drop_of_length_le (Nat.le_of_lt hlt)]
    exact ⟨_, take_of_lt hf hlt, rfl, hf⟩
  · obtain ⟨rest, htake, hrest, hfail⟩ := take_of_le hle
    exact ⟨rest, htake, hrest, hfail.trans hf⟩

/-- A read from a source that fails comes to the failure or takes all that it wants. -/
theorem take_cases_of_failure_eq_some {e : DeviceError} (hf : s.failure = some e) (n : Nat) :
    s.take n = .error e ∨
      ∃ chunk rest, s.take n = .ok (chunk, rest) ∧ chunk.length = n ∧ rest.failure = some e := by
  rcases Nat.lt_or_ge s.bytes.length n with hlt | hle
  · exact .inl (take_of_failure_eq_some hf hlt)
  · obtain ⟨rest, htake, -, hfail⟩ := take_of_le hle
    exact .inr ⟨_, rest, htake, List.length_take_of_le hle, hfail.trans hf⟩

theorem of_take_eq_ok {chunk : List UInt8} {rest : Source} (hf : s.failure = none)
    (h : s.take n = .ok (chunk, rest)) :
    chunk = s.bytes.take n ∧ rest.bytes = s.bytes.drop n ∧ rest.failure = none := by
  obtain ⟨rest', htake, hrest⟩ := take_of_failure_eq_none hf n
  cases h.symm.trans htake
  exact ⟨rfl, hrest⟩

theorem readAll_of_failure_eq_none (hf : s.failure = none) : s.readAll = .ok s.bytes := by
  rw [readAll, hf]

theorem readAll_of_failure_eq_some {e : DeviceError} (hf : s.failure = some e) :
    s.readAll = .error e := by
  rw [readAll, hf]

end Source

/-! ### Reading chunk by chunk -/

/-- Reading a code from a source that does not fail takes bytes until the code has its length, as
far as there are any. -/
theorem readCode_of_failure_eq_none {s : Source} (hf : s.failure = none) (length : Nat)
    (code : Code) :
    ∃ rest, readCode length code s =
        .ok (code ++ (s.bytes.take (length - code.size)).toArray, rest) ∧
      rest.bytes = s.bytes.drop (length - code.size) ∧ rest.failure = none := by
  fun_induction readCode length code s with
  | case1 code s hlt wanted e htake =>
    obtain ⟨rest, htake', -⟩ := Source.take_of_failure_eq_none hf wanted
    cases htake.symm.trans htake'
  | case2 code s hlt wanted chunk rest htake hshort =>
    obtain ⟨rfl, hrest, hf'⟩ := Source.of_take_eq_ok hf htake
    -- The source has come to its end, so asking it for all of the code gives the same.
    have hall : s.bytes.length ≤ wanted := by
      rw [List.length_take] at hshort
      omega
    have hall' : s.bytes.length ≤ length - code.size := Nat.le_trans hall (Nat.min_le_left ..)
    rw [List.drop_of_length_le hall] at hrest
    rw [List.take_of_length_le hall, List.take_of_length_le hall', List.drop_of_length_le hall']
    exact ⟨rest, rfl, hrest, hf'⟩
  | case3 code s hlt wanted chunk rest htake hfull ih =>
    obtain ⟨rfl, hrest, hf'⟩ := Source.of_take_eq_ok hf htake
    obtain ⟨last, hread, hlast, hf''⟩ := ih hf'
    have hwanted : (s.bytes.take wanted).length = wanted := by
      rw [List.length_take] at hfull ⊢
      omega
    have hleft : length - code.size =
        wanted + (length - (code ++ (s.bytes.take wanted).toArray).size) := by
      have : wanted ≤ length - code.size := Nat.min_le_left ..
      simp only [Array.size_append, List.size_toArray, hwanted]
      omega
    refine ⟨last, hread.trans ?_, hlast.trans ?_, hf''⟩
    · rw [hleft, List.take_add, hrest, ← List.append_toArray, Array.append_assoc]
    · rw [hleft, hrest, List.drop_drop]
  | case4 code s hge =>
    rw [Nat.sub_eq_zero_of_le (Nat.le_of_not_lt hge)]
    exact ⟨s, by simp, rfl, hf⟩

/-- Reading a code from a source that fails comes to the failure, unless the code has its length
before. It is never cut short. -/
theorem readCode_of_failure_eq_some {s : Source} {e : DeviceError} (hf : s.failure = some e)
    (length : Nat) (code : Code) :
    readCode length code s = .error e ∨
      ∃ whole rest, readCode length code s = .ok (whole, rest) ∧ length ≤ whole.size ∧
        rest.failure = some e := by
  fun_induction readCode length code s with
  | case1 code s hlt wanted e' htake =>
    rcases Source.take_cases_of_failure_eq_some hf wanted with h | ⟨chunk, rest, h, -⟩ <;>
      cases htake.symm.trans h
    exact .inl rfl
  | case2 code s hlt wanted chunk rest htake hshort =>
    rcases Source.take_cases_of_failure_eq_some hf wanted with h | ⟨_, _, h, hlength, -⟩ <;>
      cases htake.symm.trans h
    exact absurd hshort (Nat.not_lt_of_le (Nat.le_of_eq hlength.symm))
  | case3 code s hlt wanted chunk rest htake hfull ih =>
    rcases Source.take_cases_of_failure_eq_some hf wanted with h | ⟨_, _, h, -, hf'⟩ <;>
      cases htake.symm.trans h
    exact ih hf'
  | case4 code s hge => exact .inr ⟨code, s, rfl, Nat.le_of_not_lt hge, hf⟩

end StackMachine
