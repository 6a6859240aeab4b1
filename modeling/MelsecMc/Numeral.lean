import Mathlib.Tactic

/-!
# Positional numerals over an alphabet of digits

A numeral is a list of digit symbols, most significant first. `write` produces
exactly `k` symbols, `shortest` the symbols without leading zeros, and `read`
is the value of a list of symbols, `none` when one of them is not a digit. The
alphabet is a pair of maps between symbols and digit values.
-/
namespace MelsecMc.Numeral

/-- An alphabet for base `base`: every digit value has a symbol that reads back. -/
structure Alphabet (δ : Type*) where
  base : ℕ
  symbol : ℕ → δ
  value : δ → Option ℕ
  base_pos : 1 < base
  value_symbol : ∀ d < base, value (symbol d) = some d
  value_lt : ∀ c d, value c = some d → d < base

variable {δ : Type*} (A : Alphabet δ)

/-- The `k` least significant digits of `n`. -/
def write : ℕ → ℕ → List δ
  | 0, _ => []
  | k + 1, n => write k (n / A.base) ++ [A.symbol (n % A.base)]

/-- The digits of `n` without leading zeros, none for zero. `fuel` bounds their number. -/
def shortest : ℕ → ℕ → List δ
  | 0, _ => []
  | fuel + 1, n =>
    if n = 0 then [] else shortest fuel (n / A.base) ++ [A.symbol (n % A.base)]

/-- One symbol more multiplies the value read so far by the base. -/
def shiftIn (acc : Option ℕ) (d : δ) : Option ℕ :=
  acc.bind fun v => (A.value d).map fun x => v * A.base + x

def read (ds : List δ) : Option ℕ := ds.foldl (shiftIn A) (some 0)

@[simp] theorem write_length (k n : ℕ) : (write A k n).length = k := by
  induction k generalizing n with
  | zero => rfl
  | succ k ih => simp [write, ih]

@[simp] theorem read_nil : read A [] = some 0 := rfl

@[simp] theorem read_concat (ds : List δ) (d : δ) :
    read A (ds ++ [d]) = shiftIn A (read A ds) d := by
  simp [read, List.foldl_append]

@[simp] theorem read_singleton (d : δ) : read A [d] = A.value d := by
  simp [read, shiftIn]

/-- The digits behind a numeral shift its value by their number. -/
theorem read_append (ds es : List δ) :
    read A (ds ++ es) =
      (read A ds).bind fun v => (read A es).map fun w => v * A.base ^ es.length + w := by
  induction es using List.reverseRecOn with
  | nil => simp
  | append_singleton es e ih =>
    rw [← List.append_assoc, read_concat, ih, read_concat, shiftIn, shiftIn]
    cases read A ds with
    | none => rfl
    | some v =>
      cases read A es with
      | none => rfl
      | some w =>
        cases A.value e with
        | none => rfl
        | some x =>
          simp only [Option.bind_some, Option.map_some, List.length_append, List.length_singleton,
            Option.some.injEq]
          ring

theorem read_lt {ds : List δ} {n : ℕ} (h : read A ds = some n) : n < A.base ^ ds.length := by
  induction ds using List.reverseRecOn generalizing n with
  | nil =>
    rw [read_nil] at h
    simp [← Option.some.inj h]
  | append_singleton ds d ih =>
    rw [read_concat, shiftIn] at h
    obtain ⟨v, hv, hd⟩ := Option.bind_eq_some_iff.mp h
    obtain ⟨x, hx, rfl⟩ := Option.map_eq_some_iff.mp hd
    have hlt := A.value_lt d x hx
    have hle := Nat.mul_le_mul_right A.base (Nat.succ_le_of_lt (ih hv))
    rw [List.length_append, List.length_singleton, pow_succ]
    calc v * A.base + x < v * A.base + A.base := by omega
      _ = (v + 1) * A.base := by ring
      _ ≤ A.base ^ ds.length * A.base := hle

/-- A digit less divides the bound. -/
theorem div_lt_pow {k n : ℕ} (h : n < A.base ^ (k + 1)) : n / A.base < A.base ^ k := by
  apply Nat.div_lt_of_lt_mul
  rwa [pow_succ, Nat.mul_comm] at h

theorem read_write (k n : ℕ) (h : n < A.base ^ k) : read A (write A k n) = some n := by
  induction k generalizing n with
  | zero => simp only [pow_zero, Nat.lt_one_iff] at h; subst n; rfl
  | succ k ih =>
    have hb := A.base_pos
    have hdiv : n / A.base < A.base ^ k := div_lt_pow A h
    have hmod : n % A.base < A.base := Nat.mod_lt _ (by omega)
    rw [write, read_concat, ih _ hdiv, shiftIn, A.value_symbol _ hmod]
    simp [Nat.div_add_mod']

/-- Numbers that fit the width have different numerals. -/
theorem write_inj {k m n : ℕ} (hm : m < A.base ^ k) (hn : n < A.base ^ k)
    (h : write A k m = write A k n) : m = n := by
  have he := congrArg (read A) h
  rw [read_write A k m hm, read_write A k n hn] at he
  exact Option.some.inj he

theorem write_append (j k n : ℕ) :
    write A j (n / A.base ^ k) ++ write A k n = write A (j + k) n := by
  induction k generalizing n with
  | zero => simp [write]
  | succ k ih =>
    have hd : n / A.base ^ (k + 1) = n / A.base / A.base ^ k := by
      rw [pow_succ, Nat.mul_comm, Nat.div_div_eq_div_mul]
    rw [hd, write, ← List.append_assoc, ih, ← Nat.add_assoc, write]

theorem write_mod (k n : ℕ) : write A k (n % A.base ^ k) = write A k n := by
  induction k generalizing n with
  | zero => rfl
  | succ k ih =>
    have h1 : n % A.base ^ (k + 1) / A.base = n / A.base % A.base ^ k := by
      rw [pow_succ, Nat.mul_comm, Nat.mod_mul_right_div_self]
    have h2 : n % A.base ^ (k + 1) % A.base = n % A.base := by
      rw [pow_succ, Nat.mul_comm]
      exact Nat.mod_mul_right_mod n A.base (A.base ^ k)
    rw [write, write, h1, h2, ih]

@[simp] theorem write_zero (k : ℕ) : write A k 0 = List.replicate k (A.symbol 0) := by
  induction k with
  | zero => rfl
  | succ k ih => simp [write, ih, List.replicate_succ']

/-- Padding the shortest numeral with zero digits gives the fixed-width one. -/
theorem pad_shortest (fuel k n : ℕ) (hk : n < A.base ^ k) (hf : n < A.base ^ fuel) :
    List.replicate (k - (shortest A fuel n).length) (A.symbol 0) ++ shortest A fuel n =
      write A k n := by
  induction fuel generalizing k n with
  | zero =>
    simp only [pow_zero, Nat.lt_one_iff] at hf
    subst n
    simp [shortest]
  | succ fuel ih =>
    by_cases hn : n = 0
    · subst n; simp [shortest]
    cases k with
    | zero => simp only [pow_zero, Nat.lt_one_iff] at hk; contradiction
    | succ k =>
      have hdiv : n / A.base < A.base ^ k := div_lt_pow A hk
      have hdivf : n / A.base < A.base ^ fuel := div_lt_pow A hf
      have hh := ih k (n / A.base) hdiv hdivf
      simp only [shortest, if_neg hn, List.length_append, List.length_singleton,
        Nat.add_sub_add_right, write]
      rw [← List.append_assoc, hh]

/-- A numeral that reads back has digits only. -/
theorem value_of_read {ds : List δ} {n : ℕ} (h : read A ds = some n) :
    ∀ d ∈ ds, (A.value d).isSome = true := by
  induction ds using List.reverseRecOn generalizing n with
  | nil => simp
  | append_singleton ds d ih =>
    rw [read_concat, shiftIn] at h
    obtain ⟨v, hv, hd⟩ := Option.bind_eq_some_iff.mp h
    obtain ⟨x, hx, -⟩ := Option.map_eq_some_iff.mp hd
    intro e he
    rcases List.mem_append.mp he with he | he
    · exact ih hv e he
    · obtain rfl := List.mem_singleton.mp he
      simp [hx]

/-- A numeral of `n` without leading zeros. Zero has one digit. -/
structure Canonical (n : ℕ) (ds : List δ) : Prop where
  reads : read A ds = some n
  ne_nil : ds ≠ []
  lead : ∀ d, ds.head? = some d → A.value d = some 0 → ds = [d]

theorem canonical_zero : Canonical A 0 [A.symbol 0] where
  reads := by rw [read_singleton, A.value_symbol 0 (by have := A.base_pos; omega)]
  ne_nil := List.cons_ne_nil _ _
  lead d hd _ := by
    rw [List.head?_cons] at hd
    rw [Option.some.inj hd]

/-- One digit more keeps a numeral without leading zeros. -/
theorem Canonical.concat {n : ℕ} {ds : List δ} (h : Canonical A n ds) (hn : n ≠ 0) {x : ℕ}
    (hx : x < A.base) : Canonical A (n * A.base + x) (ds ++ [A.symbol x]) where
  reads := by rw [read_concat, h.reads, shiftIn, A.value_symbol x hx]; rfl
  ne_nil := by simp
  lead d hd hzero := by
    rw [List.head?_append_of_ne_nil _ h.ne_nil] at hd
    have hone := h.lead d hd hzero
    have hreads := h.reads
    rw [hone, read_singleton, hzero] at hreads
    exact absurd (Option.some.inj hreads).symm hn

theorem canonical_shortest {fuel n : ℕ} (hf : n < A.base ^ fuel) (hn : n ≠ 0) :
    Canonical A n (shortest A fuel n) := by
  induction fuel generalizing n with
  | zero => simp only [pow_zero, Nat.lt_one_iff] at hf; contradiction
  | succ fuel ih =>
    have hb := A.base_pos
    have hmod : n % A.base < A.base := Nat.mod_lt _ (by omega)
    rw [shortest, if_neg hn]
    by_cases hsmall : n / A.base = 0
    · have hlt : n < A.base := by
        rcases Nat.div_eq_zero_iff.mp hsmall with h | h
        · omega
        · exact h
      have hempty : shortest A fuel (n / A.base) = [] := by
        rw [hsmall]
        cases fuel <;> simp [shortest]
      rw [hempty, List.nil_append, Nat.mod_eq_of_lt hlt]
      refine ⟨by rw [read_singleton, A.value_symbol n hlt], List.cons_ne_nil _ _, ?_⟩
      intro d hd _
      rw [List.head?_cons] at hd
      rw [Option.some.inj hd]
    · have hdiv : n / A.base < A.base ^ fuel := div_lt_pow A hf
      have hcanonical := (ih hdiv hsmall).concat A hsmall hmod
      rwa [Nat.div_add_mod'] at hcanonical

/-- Numbers below a power of the base have no more digits than its exponent. -/
theorem shortest_length_le (fuel : ℕ) {k n : ℕ} (hk : n < A.base ^ k) :
    (shortest A fuel n).length ≤ k := by
  induction fuel generalizing k n with
  | zero => simp [shortest]
  | succ fuel ih =>
    rw [shortest]
    split_ifs with hn
    · simp
    cases k with
    | zero => simp only [pow_zero, Nat.lt_one_iff] at hk; contradiction
    | succ k =>
      have hdiv : n / A.base < A.base ^ k := div_lt_pow A hk
      have hle := ih hdiv
      rw [List.length_append, List.length_singleton]
      omega

end MelsecMc.Numeral
