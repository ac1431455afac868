import Mathlib.Tactic

/-!
# Cycle detection by doubling periods

A walk passes one value after the other and compares each with a mark.  The mark
moves to the current value whenever a period is over, and each period is twice
as long as the one before.  The counters are words of `bits` bits.  A walk that
goes round meets its mark, since some period is long enough and starts late
enough.
-/

namespace Littlefs.Cycles

variable {α : Type}

/-- The value to compare with, and how far the current period is. -/
structure Mark (α : Type) where
  value : α
  i : ℕ
  period : ℕ

def Mark.step (bits : ℕ) (mark : Mark α) (value : α) : Mark α :=
  if mark.i = mark.period then
    { value := value, i := 1, period := mark.period * 2 % 2 ^ bits }
  else
    { mark with i := (mark.i + 1) % 2 ^ bits }

/-- The mark that the walk carries to its `k`-th value. -/
def markAt (bits : ℕ) (start : α) (walk : ℕ → α) : ℕ → Mark α
  | 0 => { value := start, i := 1, period := 1 }
  | k + 1 => (markAt bits start walk k).step bits (walk k)

variable {bits : ℕ} {start : α} {walk : ℕ → α}

/-- The mark never holds a value that the walk has yet to pass. -/
theorem markAt_value (k : ℕ) :
    (markAt bits start walk k).value = start ∨
      ∃ earlier < k, (markAt bits start walk k).value = walk earlier := by
  induction k with
  | zero => exact .inl rfl
  | succ k ih =>
      rw [markAt, Mark.step]
      split
      · exact .inr ⟨k, k.lt_succ_self, rfl⟩
      · apply ih.imp_right
        intro h
        obtain ⟨earlier, hlt, hvalue⟩ := h
        exact ⟨earlier, hlt.trans k.lt_succ_self, hvalue⟩

/-! ## Periods -/

/-- A period starts: the mark was just set to the value at `k`. -/
def Starts (bits : ℕ) (start : α) (walk : ℕ → α) (k period : ℕ) : Prop :=
  markAt bits start walk (k + 1) = { value := walk k, i := 1, period := period }

/-- The number of steps until the counter meets the period; a period that has
run over its word takes a full turn of the counter. -/
def span (bits period : ℕ) : ℕ := if period = 0 then 2 ^ bits else period

theorem span_mod {period : ℕ} (hperiod : period < 2 ^ bits) :
    span bits period % 2 ^ bits = period := by
  rw [span]
  split_ifs with hzero
  · rw [Nat.mod_self, hzero]
  · exact Nat.mod_eq_of_lt hperiod

theorem span_le {period : ℕ} (hperiod : period < 2 ^ bits) : span bits period ≤ 2 ^ bits := by
  rw [span]
  split_ifs
  · exact le_rfl
  · exact hperiod.le

/-- Until its period is over the mark stays. -/
theorem Starts.stays {k period : ℕ} (hbits : 1 < 2 ^ bits)
    (hstarts : Starts bits start walk k period) (hperiod : period < 2 ^ bits) {s : ℕ}
    (hpos : 1 ≤ s) (hspan : s ≤ span bits period) :
    markAt bits start walk (k + s) =
      { value := walk k, i := s % 2 ^ bits, period := period } := by
  induction s, hpos using Nat.le_induction with
  | base => rw [Nat.mod_eq_of_lt hbits]; exact hstarts
  | succ s hpos ih =>
      have hlt : s < 2 ^ bits := hspan.trans (span_le hperiod)
      have hrunning : s ≠ period := by
        intro h
        rw [span, if_neg (by omega)] at hspan
        omega
      rw [← add_assoc, markAt, ih (by omega), Mark.step, Nat.mod_eq_of_lt hlt, if_neg hrunning]

/-- The next period is twice as long. -/
theorem Starts.next {k period : ℕ} (hbits : 1 < 2 ^ bits)
    (hstarts : Starts bits start walk k period) (hperiod : period < 2 ^ bits) :
    Starts bits start walk (k + span bits period) (period * 2 % 2 ^ bits) := by
  have hpos : 1 ≤ span bits period := by
    rw [span]
    split_ifs <;> omega
  rw [Starts, markAt, hstarts.stays hbits hperiod hpos le_rfl, span_mod hperiod, Mark.step,
    if_pos rfl]

theorem starts_zero (hbits : 2 < 2 ^ bits) : Starts bits start walk 0 2 := by
  rw [Starts, markAt, markAt, Mark.step, if_pos rfl]
  simp only [one_mul, Nat.mod_eq_of_lt hbits]

theorem span_pow {n : ℕ} (hn : n ≤ bits) : span bits (2 ^ n % 2 ^ bits) = 2 ^ n := by
  have hpos : 0 < 2 ^ n := by positivity
  apply hn.lt_or_eq.elim
  · intro hlt
    rw [Nat.mod_eq_of_lt (Nat.pow_lt_pow_right (by decide) hlt), span, if_neg hpos.ne']
  · intro heq
    rw [heq, Nat.mod_self, span, if_pos rfl]

/-- The `n`-th period starts at `2 ^ (n + 1) - 2`. -/
theorem starts_pow (hbits : 2 < 2 ^ bits) {n : ℕ} (hn : n ≤ bits) :
    Starts bits start walk (2 ^ (n + 1) - 2) (2 ^ (n + 1) % 2 ^ bits) := by
  induction n with
  | zero =>
      rw [zero_add, pow_one, Nat.mod_eq_of_lt hbits]
      exact starts_zero hbits
  | succ n ih =>
      have hnext := (ih (by omega)).next (by omega) (Nat.mod_lt _ (by positivity))
      have hstart : 2 ^ (n + 1) - 2 + 2 ^ (n + 1) = 2 ^ (n + 1 + 1) - 2 := by
        have hpow : 2 ^ (n + 1 + 1) = 2 ^ (n + 1) * 2 := pow_succ 2 (n + 1)
        have hpos : 2 ≤ 2 ^ (n + 1) := Nat.le_self_pow (by omega) 2
        omega
      rwa [span_pow hn, hstart, Nat.mod_mul_mod, ← pow_succ] at hnext

/-! ## Walks that go round -/

/-- From its `first` value on, the walk repeats itself every `round` steps. -/
structure GoesRound (walk : ℕ → α) (first round : ℕ) : Prop where
  pos : 0 < round
  again : ∀ k, first ≤ k → walk (k + round) = walk k

/-- A walk that goes round meets its mark. -/
theorem GoesRound.exists_meet {first round bound : ℕ} (hround : GoesRound walk first round)
    (hbound : first + round ≤ bound) (hbits : 2 < 2 ^ bits) (hword : bound ≤ 2 ^ bits) :
    ∃ k ≤ 5 * bound, walk k = (markAt bits start walk k).value := by
  have hpos := hround.pos
  let n := Nat.clog 2 bound
  have hn : n ≤ bits := Nat.clog_le_of_le_pow hword
  have hlow : bound ≤ 2 ^ n := Nat.le_pow_clog (by decide) bound
  have hhigh : 2 ^ n ≤ 2 * bound := by
    cases hcases : n with
    | zero => simp; omega
    | succ m =>
        have hlt : 2 ^ m < bound := by
          apply Nat.pow_lt_of_lt_clog
          change m < n
          omega
        rw [pow_succ]
        omega
  have hdouble : 2 ^ (n + 1) = 2 ^ n * 2 := pow_succ 2 n
  have hstarts : Starts bits start walk (2 ^ (n + 1) - 2) (2 ^ (n + 1) % 2 ^ bits) :=
    starts_pow hbits hn
  have hspan : round ≤ span bits (2 ^ (n + 1) % 2 ^ bits) := by
    apply hn.lt_or_eq.elim
    · intro hlt
      rw [span_pow hlt]
      omega
    · intro heq
      rw [heq, pow_succ, Nat.mul_mod_right, span, if_pos rfl]
      omega
  refine ⟨2 ^ (n + 1) - 2 + round, by omega, ?_⟩
  rw [hstarts.stays (by omega) (Nat.mod_lt _ (by positivity)) hpos hspan]
  exact hround.again _ (by omega)

/-- A walk that comes back to a value repeats itself from there on. -/
theorem goesRound_of_eq (next : α → α) (hnext : ∀ k, walk (k + 1) = next (walk k)) {k l : ℕ}
    (hlt : k < l) (heq : walk k = walk l) : GoesRound walk k (l - k) := by
  refine ⟨by omega, ?_⟩
  intro m hm
  induction m, hm using Nat.le_induction with
  | base => rw [show k + (l - k) = l by omega, heq]
  | succ m _ ih =>
      rw [show m + 1 + (l - k) = m + (l - k) + 1 by omega, hnext, hnext, ih]

/-! ## Walks that may end -/

/-- Where `k` steps of a partial `next` lead. -/
def follow (next : α → Option α) (start : α) : ℕ → Option α
  | 0 => some start
  | k + 1 => (follow next start k).bind next

/-- The walk comes back to a value. -/
def Returns (next : α → Option α) (start : α) : Prop :=
  ∃ k l value, k < l ∧ follow next start k = some value ∧ follow next start l = some value

section

variable {next : α → Option α} {value : α} {k l : ℕ}

theorem follow_none_of_le (hle : k ≤ l) (hnone : follow next start k = none) :
    follow next start l = none := by
  induction l, hle using Nat.le_induction with
  | base => exact hnone
  | succ l _ ih =>
      rw [follow, ih]
      rfl

theorem follow_goesRound (hlt : k < l) (hk : follow next start k = some value)
    (hl : follow next start l = some value) : GoesRound (follow next start) k (l - k) :=
  goesRound_of_eq (·.bind next) (fun _ => rfl) hlt (hk.trans hl.symm)

/-- A walk that comes back never ends. -/
theorem Returns.follow_ne_none (hreturns : Returns next start) (k : ℕ) :
    follow next start k ≠ none := by
  obtain ⟨first, again, value, hlt, hfirst, hagain⟩ := hreturns
  have hround := follow_goesRound hlt hfirst hagain
  have hsome : ∀ k, follow next start (first + k * (again - first)) = some value := by
    intro k
    induction k with
    | zero => simpa using hfirst
    | succ k ih =>
        rw [show first + (k + 1) * (again - first) =
          first + k * (again - first) + (again - first) by ring, hround.again _ (by omega), ih]
  have hlate : k ≤ first + k * (again - first) :=
    (Nat.le_mul_of_pos_right _ hround.pos).trans (Nat.le_add_left _ _)
  intro hnone
  have hnone' := follow_none_of_le hlate hnone
  rw [hsome] at hnone'
  cases hnone'

/-- Where the next value depends on one of finitely many sites, a long walk comes back. -/
theorem exists_return {sites : ℕ} {site : α → ℕ}
    (hsite : ∀ value value', next value = some value' → site value < sites)
    (hnext : ∀ value other, next value ≠ none → next other ≠ none →
      site value = site other → next value = next other)
    (hlong : follow next start (sites + 1) ≠ none) :
    ∃ k l value, k < l ∧ l ≤ sites + 1 ∧ follow next start k = some value ∧
      follow next start l = some value := by
  have hstep : ∀ k ≤ sites, ∃ value value', follow next start k = some value ∧
      follow next start (k + 1) = some value' ∧ next value = some value' := by
    intro k hk
    cases hsucc : follow next start (k + 1) with
    | none => exact absurd (follow_none_of_le (by omega) hsucc) hlong
    | some value' =>
        rw [follow] at hsucc
        obtain ⟨value, hvalue, hvalue'⟩ := Option.bind_eq_some_iff.mp hsucc
        exact ⟨value, value', hvalue, rfl, hvalue'⟩
  have : Nonempty α := ⟨start⟩
  choose! before after hbefore hafter hstep using hstep
  obtain ⟨k, l, hne, hsame⟩ := Fintype.exists_ne_map_eq_of_card_lt
    (fun k : Fin (sites + 1) =>
      (⟨site (before k), hsite _ _ (hstep k (Fin.is_le k))⟩ : Fin sites)) (by simp)
  have hsame : site (before k) = site (before l) := congrArg Fin.val hsame
  have hmeet : after k = after l := by
    have hk := hstep k (Fin.is_le k)
    have hl := hstep l (Fin.is_le l)
    have hnexts := hnext _ _ (by simp [hk]) (by simp [hl]) hsame
    rw [hk, hl] at hnexts
    exact Option.some.inj hnexts
  have hk := Fin.is_le k
  have hl := Fin.is_le l
  apply (lt_or_gt_of_ne (Fin.val_ne_of_ne hne)).elim
  · intro hlt
    exact ⟨k + 1, l + 1, after l, by omega, by omega, hmeet ▸ hafter k hk, hafter l hl⟩
  · intro hlt
    exact ⟨l + 1, k + 1, after l, by omega, by omega, hafter l hl, hmeet ▸ hafter k hk⟩

end

end Littlefs.Cycles
