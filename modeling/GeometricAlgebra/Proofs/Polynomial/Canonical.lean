import GeometricAlgebra.Proofs.Polynomial.Terms

set_option autoImplicit false

/-! # Canonical polynomials

A polynomial is canonical for a tolerance if its monomials ascend and no coefficient is within the
tolerance. Sums and products are built by `addTerm`, which drops what is within the tolerance; the
other operations build their terms by themselves.

With fractions for coefficients, each operation either keeps canonical form or is known by when it
does: a number from outside and a quotient are the two that need not be canonical, and nothing else
leads out (`Reachable.canonical`). What canonical form is worth are the laws of sums, which hold
where no operand has a coefficient that a sum would drop. -/

namespace GeometricAlgebra

namespace Polynomial

open Coefficient

variable {δ ε : Rat} {p q r : Polynomial Rat} {t : Std.ExtTreeMap Monomial Rat}

/-! ## Coefficients after a sum -/

/-- A coefficient that is not within the tolerance. -/
def kept (ε c : Rat) : Option Rat := if ε < |c| then some c else none

theorem kept_eq_some_iff {c v : Rat} : kept ε c = some v ↔ v = c ∧ ε < |c| := by
  unfold kept
  split
  · next h => simp [h, eq_comm]
  · next h => simp [h]

/-- The coefficient of a monomial, zero without a term. -/
def coefficient (p : Polynomial Rat) (m : Monomial) : Rat := p.terms[m]?.getD 0

/-- An added term and the coefficient there was are kept together or not at all. -/
theorem getElem?_addTerm_eq_kept (t : Std.ExtTreeMap Monomial Rat) (m : Monomial) (c : Rat)
    (n : Monomial) :
    (addTerm ε t m c)[n]? = if m = n then kept ε (t[n]?.getD 0 + c) else t[n]? := by
  rw [getElem?_addTerm]
  by_cases hmn : m = n
  · subst hmn
    rw [if_pos rfl, if_pos rfl]
    cases t[m]? with
    | none => simp [kept, lt, magnitude]
    | some old =>
        simp only [le, magnitude, decide_eq_true_eq, Option.getD_some, kept, ← not_le, ite_not]
  · rw [if_neg hmn, if_neg hmn]

/-- Terms that are added meet the coefficients of the start, each monomial its own. -/
theorem getElem?_add (p q : Polynomial Rat) (n : Monomial) :
    (add ε p q).terms[n]? =
      match q.terms[n]? with
      | some c => kept ε (p.coefficient n + c)
      | none => p.terms[n]? := by
  -- terms of other monomials do not matter
  have hother : ∀ (l : List (Monomial × Rat)) (u : Std.ExtTreeMap Monomial Rat),
      n ∉ l.map Prod.fst → (l.foldl (fun u s => addTerm ε u s.1 s.2) u)[n]? = u[n]? := by
    intro l u hl
    refine List.foldlRecOn l _ (motive := fun w => w[n]? = u[n]?) rfl fun w hw s hs => ?_
    have hne : s.1 ≠ n := by
      rintro rfl
      exact hl (List.mem_map_of_mem hs)
    rw [getElem?_addTerm_eq_kept, if_neg hne, hw]
  unfold add
  rw [Std.ExtTreeMap.foldl_eq_foldl_toList]
  cases hn : q.terms[n]? with
  | none =>
      refine hother _ p.terms fun hmem => ?_
      rw [Std.ExtTreeMap.map_fst_toList_eq_keys, Std.ExtTreeMap.mem_keys,
        Std.ExtTreeMap.mem_iff_isSome_getElem?, hn] at hmem
      cases hmem
  | some c =>
      obtain ⟨l, l', hl⟩ :=
        List.append_of_mem (Std.ExtTreeMap.mem_toList_iff_getElem?_eq_some.mpr hn)
      have hnodup : (q.terms.toList.map Prod.fst).Nodup := by
        rw [Std.ExtTreeMap.map_fst_toList_eq_keys]
        exact Std.ExtTreeMap.nodup_keys
      rw [hl, List.map_append, List.map_cons, List.nodup_middle, List.nodup_cons,
        List.mem_append, not_or] at hnodup
      obtain ⟨⟨hbefore, hafter⟩, -⟩ := hnodup
      rw [hl, List.foldl_append, List.foldl_cons, hother l' _ hafter, getElem?_addTerm_eq_kept,
        if_pos rfl, hother l _ hbefore]
      rfl

/-! ## Canonical form -/

/-- Monomials ascend, and no coefficient is within the tolerance. -/
structure Canonical (δ : Rat) (p : Polynomial Rat) : Prop where
  ascending : ∀ m ∈ p.terms, Ascending m
  lt_abs : ∀ (m : Monomial) c, p.terms[m]? = some c → δ < |c|

theorem Canonical.mono (h : Canonical ε p) (hδ : δ ≤ ε) : Canonical δ p :=
  ⟨h.ascending, fun m c hc => hδ.trans_lt (h.lt_abs m c hc)⟩

theorem canonical_zero : Canonical δ zero := by
  refine ⟨fun m hm => absurd hm Std.ExtTreeMap.not_mem_empty, fun m c hc => ?_⟩
  rw [zero, Std.ExtTreeMap.getElem?_empty] at hc
  cases hc

theorem canonical_single_iff {m : Monomial} (hm : Ascending m) {c : Rat} :
    Canonical δ ⟨(∅ : Std.ExtTreeMap Monomial Rat).insert m c⟩ ↔ δ < |c| := by
  constructor
  · intro h
    exact h.lt_abs m c Std.ExtTreeMap.getElem?_insert_self
  · intro hc
    refine ⟨fun n hn => ?_, fun n d hd => ?_⟩
    · rw [Std.ExtTreeMap.mem_insert, Std.compare_eq_iff_eq] at hn
      rcases hn with rfl | hn
      · exact hm
      · exact absurd hn Std.ExtTreeMap.not_mem_empty
    · rw [Std.ExtTreeMap.getElem?_insert, Std.ExtTreeMap.getElem?_empty] at hd
      split at hd
      · cases hd
        exact hc
      · cases hd

theorem constant_of_ne_zero {c : Rat} (hc : c ≠ 0) :
    constant c = ⟨(∅ : Std.ExtTreeMap Monomial Rat).insert [] c⟩ :=
  if_neg (by simpa [eq, ofInt] using hc)

theorem constant_zero : constant (0 : Rat) = zero := if_pos (by simp [eq, ofInt])

/-- A constant is not checked against the tolerance. -/
theorem canonical_constant_iff {c : Rat} : Canonical δ (constant c) ↔ c = 0 ∨ δ < |c| := by
  by_cases hc : c = 0
  · rw [hc, constant_zero]
    exact iff_of_true canonical_zero (Or.inl rfl)
  · rw [constant_of_ne_zero hc, canonical_single_iff List.Pairwise.nil, or_iff_right hc]

/-- Integers are zero or above a tolerance below one. -/
theorem canonical_ofInt (hδ : δ < 1) (m : Int) : Canonical δ (constant (m : Rat)) := by
  rw [canonical_constant_iff]
  by_cases hm : m = 0
  · exact Or.inl (by exact_mod_cast hm)
  · have hone : (1 : Rat) ≤ |(m : Rat)| := by exact_mod_cast Int.one_le_abs hm
    exact Or.inr (hδ.trans_le hone)

theorem canonical_atom (hδ : δ < 1) (a : String) : Canonical δ (atom a : Polynomial Rat) :=
  (canonical_single_iff (List.pairwise_singleton _ a)).mpr (by simpa [ofInt] using hδ)

/-! ## What operations keep -/

/-- Adding a term keeps canonical form, whatever the term is. -/
theorem Canonical.addTerm (hδ : δ ≤ ε) (h : Canonical δ ⟨t⟩) {m : Monomial} (hm : Ascending m)
    (c : Rat) : Canonical δ ⟨Polynomial.addTerm ε t m c⟩ := by
  refine ⟨fun n hn => ?_, fun n d hd => ?_⟩
  · obtain ⟨d, hd⟩ := Option.isSome_iff_exists.mp (Std.ExtTreeMap.mem_iff_isSome_getElem?.mp hn)
    rw [getElem?_addTerm_eq_kept] at hd
    split at hd
    · next heq => rwa [← heq]
    · exact h.ascending n (Std.ExtTreeMap.mem_iff_isSome_getElem?.mpr (by rw [hd]; rfl))
  · rw [getElem?_addTerm_eq_kept] at hd
    split at hd
    · obtain ⟨rfl, hlt⟩ := kept_eq_some_iff.mp hd
      exact hδ.trans_lt hlt
    · exact h.lt_abs n d hd

/-- So do terms that are added one after another. -/
theorem Canonical.foldl_addTerm (hδ : δ ≤ ε) (h : Canonical δ ⟨t⟩) {l : List (Monomial × Rat)}
    {monomial : Monomial × Rat → Monomial} (hl : ∀ s ∈ l, Ascending (monomial s))
    (value : Monomial × Rat → Rat) :
    Canonical δ ⟨l.foldl (fun u s => Polynomial.addTerm ε u (monomial s) (value s)) t⟩ :=
  List.foldlRecOn l _ (motive := fun u => Canonical δ ⟨u⟩) h
    fun _ hu s hs => hu.addTerm hδ (hl s hs) (value s)

theorem Canonical.add (hδ : δ ≤ ε) (hp : Canonical δ p) (hq : ∀ m ∈ q.terms, Ascending m) :
    Canonical δ (Polynomial.add ε p q) := by
  unfold Polynomial.add
  rw [Std.ExtTreeMap.foldl_eq_foldl_toList]
  exact hp.foldl_addTerm hδ (fun s hs => hq s.1 (mem_terms_of_mem_toList hs)) Prod.snd

theorem Canonical.sub (hδ : δ ≤ ε) (hp : Canonical δ p) (hq : ∀ m ∈ q.terms, Ascending m) :
    Canonical δ (Polynomial.sub ε p q) := by
  unfold Polynomial.sub
  rw [Std.ExtTreeMap.foldl_eq_foldl_toList]
  exact hp.foldl_addTerm hδ (fun s hs => hq s.1 (mem_terms_of_mem_toList hs)) fun s => -s.2

/-- A product is canonical even where its factors are not. -/
theorem canonical_mul (p q : Polynomial Rat) : Canonical ε (mul ε p q) := by
  unfold mul
  rw [Std.ExtTreeMap.foldl_eq_foldl_toList]
  refine List.foldlRecOn p.terms.toList _ (motive := fun u => Canonical ε ⟨u⟩) canonical_zero
    fun u hu s _ => ?_
  rw [Std.ExtTreeMap.foldl_eq_foldl_toList]
  exact hu.foldl_addTerm le_rfl (fun v _ => ascending_mulMonomial s.1 v.1) fun v => s.2 * v.2

/-- Coefficients that are changed one by one are not checked again. -/
theorem canonical_map_iff (hp : ∀ m ∈ p.terms, Ascending m) (f : Rat → Rat) :
    Canonical δ ⟨p.terms.map fun _ c => f c⟩ ↔
      ∀ (m : Monomial) c, p.terms[m]? = some c → δ < |f c| := by
  constructor
  · intro h m c hc
    refine h.lt_abs m (f c) ?_
    rw [Std.ExtTreeMap.getElem?_map, hc]
    rfl
  · intro h
    refine ⟨fun m hm => hp m (Std.ExtTreeMap.mem_map.mp hm), fun m c hc => ?_⟩
    rw [Std.ExtTreeMap.getElem?_map, Option.map_eq_some_iff] at hc
    obtain ⟨d, hd, rfl⟩ := hc
    exact h m d hd

theorem Canonical.neg (hp : Canonical δ p) : Canonical δ p.neg := by
  refine (canonical_map_iff hp.ascending fun c => -c).mpr fun m c hc => ?_
  rw [abs_neg]
  exact hp.lt_abs m c hc

/-! ## Quotients -/

theorem div_eq_ok_iff :
    div ε p q = .ok r ↔
      ∃ d, q.constant? = some d ∧ ε < |d| ∧ r = ⟨p.terms.map fun _ c => c / d⟩ := by
  unfold div
  cases q.constant? with
  | none => simp
  | some d =>
      simp only [le, magnitude, decide_eq_true_eq, Option.some.injEq]
      constructor
      · intro h
        split at h
        · cases h
        · next hd =>
            cases h
            exact ⟨d, rfl, not_le.mp hd, rfl⟩
      · rintro ⟨_, rfl, hd, rfl⟩
        exact if_neg (not_le.mpr hd)

/-- A quotient is canonical iff the divisor leaves no coefficient within the tolerance. -/
theorem canonical_div_iff (hε : 0 ≤ ε) (hp : ∀ m ∈ p.terms, Ascending m)
    (hr : div ε p q = .ok r) :
    ∃ d, q.constant? = some d ∧
      (Canonical δ r ↔ ∀ (m : Monomial) c, p.terms[m]? = some c → δ * |d| < |c|) := by
  obtain ⟨d, hd, hlt, rfl⟩ := div_eq_ok_iff.mp hr
  refine ⟨d, hd, ?_⟩
  have hpos : 0 < |d| := hε.trans_lt hlt
  rw [canonical_map_iff hp fun c => c / d]
  simp only [abs_div, lt_div_iff₀ hpos]

/-! ## Laws of sums -/

theorem add_zero_eq (p : Polynomial Rat) : add ε p zero = p := rfl

/-- Zero on the left drops what is within the tolerance, so it is neutral for canonical polynomials
    alone. -/
theorem zero_add_eq_iff (hp : ∀ m ∈ p.terms, Ascending m) : add ε zero p = p ↔ Canonical ε p := by
  constructor
  · intro h
    rw [← h]
    exact canonical_zero.add le_rfl hp
  · intro h
    refine ext_terms (Std.ExtTreeMap.ext_getElem? fun {n} => ?_)
    have hnone : (zero : Polynomial Rat).terms[n]? = none := Std.ExtTreeMap.getElem?_empty
    rw [getElem?_add, coefficient, hnone]
    cases hn : p.terms[n]? with
    | none => rfl
    | some c =>
        show kept ε (0 + c) = some c
        rw [zero_add]
        exact if_pos (h.lt_abs n c hn)

/-- So does the factor one. -/
theorem one_mul_eq (hp : ∀ m ∈ p.terms, Ascending m) :
    mul ε (constant 1) p = add ε zero p := by
  have hone : (constant (1 : Rat)).terms.toList = [([], 1)] := by
    rw [constant_of_ne_zero one_ne_zero]
    rfl
  unfold mul add
  rw [Std.ExtTreeMap.foldl_eq_foldl_toList (t := (constant (1 : Rat)).terms), hone, List.foldl_cons,
    List.foldl_nil, Std.ExtTreeMap.foldl_eq_foldl_toList, Std.ExtTreeMap.foldl_eq_foldl_toList]
  refine congrArg Polynomial.mk (List.foldl_ext _ _ _ fun u s hs => ?_)
  have hsort : mulMonomial [] s.1 = s.1 := by
    refine List.mergeSort_of_pairwise ((hp s.1 (mem_terms_of_mem_toList hs)).imp fun h => ?_)
    exact decide_eq_true h
  rw [hsort, one_mul]

/-- The order of operands matters exactly for a monomial of one of them alone, if its coefficient is
    within the tolerance: the sum keeps what it starts from. -/
theorem add_comm_iff :
    add ε p q = add ε q p ↔
      (∀ (m : Monomial) c, p.terms[m]? = some c → q.terms[m]? = none → ε < |c|) ∧
      ∀ (m : Monomial) c, q.terms[m]? = some c → p.terms[m]? = none → ε < |c| := by
  -- each side at a monomial, by which of the operands have it
  have hterm : ∀ (x y : Polynomial Rat) (m : Monomial), (add ε x y).terms[m]? =
      match x.terms[m]?, y.terms[m]? with
      | some c, some d => kept ε (c + d)
      | some c, none => some c
      | none, some d => kept ε d
      | none, none => none := by
    intro x y m
    rw [getElem?_add, coefficient]
    cases x.terms[m]? <;> cases y.terms[m]? <;> simp
  constructor
  · intro h
    have hm := fun m : Monomial => congrArg (fun x : Polynomial Rat => x.terms[m]?) h
    simp only [hterm] at hm
    refine ⟨fun m c hp hq => ?_, fun m c hq hp => ?_⟩
    · have := hm m
      rw [hp, hq] at this
      exact (kept_eq_some_iff.mp this.symm).2
    · have := hm m
      rw [hp, hq] at this
      exact (kept_eq_some_iff.mp this).2
  · rintro ⟨hp, hq⟩
    refine ext_terms (Std.ExtTreeMap.ext_getElem? fun {m} => ?_)
    rw [hterm, hterm]
    cases hpm : p.terms[m]? with
    | none =>
        cases hqm : q.terms[m]? with
        | none => rfl
        | some d => exact if_pos (hq m d hqm hpm)
    | some c =>
        cases hqm : q.terms[m]? with
        | none => exact (if_pos (hp m c hpm hqm)).symm
        | some d => exact congrArg (kept ε) (add_comm c d)

theorem Canonical.add_comm (hp : Canonical ε p) (hq : Canonical ε q) :
    Polynomial.add ε p q = Polynomial.add ε q p :=
  add_comm_iff.mpr ⟨fun m c hc _ => hp.lt_abs m c hc, fun m c hc _ => hq.lt_abs m c hc⟩

/-! ## Everything that operations make -/

/-- The polynomials that operations make, where numbers from outside and quotients are let in as far
    as `admits` says. Integers may have any size, so those of 32 bits are among them. -/
inductive Reachable (ε : Rat) (admits : Polynomial Rat → Prop) : Polynomial Rat → Prop
  | zero : Reachable ε admits (scalars ε).zero
  | one : Reachable ε admits (scalars ε).one
  | ofInt (m : Int) : Reachable ε admits ((scalars ε).ofInt m)
  | ofFloat (x : Float) : admits ((scalars ε).ofFloat x) →
      Reachable ε admits ((scalars ε).ofFloat x)
  | atom (a : String) : Reachable ε admits (atom a)
  | add {p q : Polynomial Rat} : Reachable ε admits p → Reachable ε admits q →
      Reachable ε admits ((scalars ε).add p q)
  | sub {p q : Polynomial Rat} : Reachable ε admits p → Reachable ε admits q →
      Reachable ε admits ((scalars ε).sub p q)
  | neg {p : Polynomial Rat} : Reachable ε admits p → Reachable ε admits ((scalars ε).neg p)
  | mul {p q : Polynomial Rat} : Reachable ε admits p → Reachable ε admits q →
      Reachable ε admits ((scalars ε).mul p q)
  | div {p q r : Polynomial Rat} : Reachable ε admits p → Reachable ε admits q →
      (scalars ε).div p q = .ok r → admits r → Reachable ε admits r

/-- **Only numbers from outside and quotients lead out of canonical form.** -/
theorem Reachable.canonical (hδ : δ ≤ ε) (hε : ε < 1) {admits : Polynomial Rat → Prop}
    (hfloat : ∀ x, admits ((scalars ε).ofFloat x) → Canonical δ ((scalars ε).ofFloat x))
    (hdiv : ∀ p q r, Canonical δ p → Polynomial.div ε p q = .ok r → admits r → Canonical δ r)
    (h : Reachable ε admits p) : Canonical δ p := by
  have hδ1 : δ < 1 := hδ.trans_lt hε
  induction h with
  | zero => exact canonical_zero
  | one => exact canonical_ofInt hδ1 1
  | ofInt m => exact canonical_ofInt hδ1 m
  | ofFloat x hx => exact hfloat x hx
  | atom a => exact canonical_atom hδ1 a
  | add _ _ hp hq => exact hp.add hδ hq.ascending
  | sub _ _ hp hq => exact hp.sub hδ hq.ascending
  | neg _ hp => exact hp.neg
  | mul _ _ _ _ => exact (canonical_mul _ _).mono hδ
  | div _ _ hr hadmits hp _ => exact hdiv _ _ _ hp hr hadmits

/-- Whatever numbers come from outside, monomials ascend and no coefficient is zero. -/
theorem Reachable.canonical_of_admits_all (h0 : 0 ≤ ε) (h1 : ε < 1)
    (h : Reachable ε (fun _ => True) p) : Canonical 0 p := by
  refine h.canonical h0 h1 (fun x _ => ?_) fun p q r hp hr _ => ?_
  · rw [scalars, canonical_constant_iff, abs_pos]
    exact eq_or_ne _ 0
  · obtain ⟨d, -, hiff⟩ := canonical_div_iff (δ := 0) h0 hp.ascending hr
    refine hiff.mpr fun m c hc => ?_
    rw [zero_mul]
    exact hp.lt_abs m c hc

/-- Where numbers from outside and quotients are canonical, everything is. -/
theorem Reachable.canonical_of_admits_canonical (h1 : ε < 1) (h : Reachable ε (Canonical ε) p) :
    Canonical ε p :=
  h.canonical le_rfl h1 (fun _ hx => hx) fun _ _ _ _ _ hr => hr

/-! ## Quotients within the tolerance -/

theorem div_constant {c d : Rat} (hc : c ≠ 0) (h0 : 0 ≤ ε) (hd : ε < |d|) :
    div ε (constant c) (constant d) = .ok (constant (c / d)) := by
  have hd0 : d ≠ 0 := abs_pos.mp (h0.trans_lt hd)
  refine div_eq_ok_iff.mpr ⟨d, ?_, hd, ?_⟩
  · rw [constant_of_ne_zero hd0]
    rfl
  · rw [constant_of_ne_zero hc, constant_of_ne_zero (div_ne_zero hc hd0)]
    rfl

/-- Halves of one are made by divisions by two. -/
theorem reachable_half (h0 : 0 ≤ ε) (h1 : ε < 1) (k : Nat) :
    Reachable ε (fun _ => True) (constant ((1 / 2 : Rat) ^ k)) := by
  have htwo : ε < |((2 : Int) : Rat)| := h1.trans (by norm_num)
  induction k with
  | zero =>
      rw [pow_zero]
      exact .one
  | succ k ih =>
      have hk : (1 / 2 : Rat) ^ k ≠ 0 := by positivity
      have hdiv := div_constant hk h0 htwo
      have hhalf : (1 / 2 : Rat) ^ k / ((2 : Int) : Rat) = (1 / 2) ^ (k + 1) := by
        push_cast
        ring
      rw [hhalf] at hdiv
      exact .div ih (.ofInt 2) hdiv trivial

/-- With a tolerance, quotients get below it, so not everything is canonical. -/
theorem forall_reachable_canonical_iff (h0 : 0 ≤ ε) (h1 : ε < 1) :
    (∀ p, Reachable ε (fun _ => True) p → Canonical ε p) ↔ ε = 0 := by
  constructor
  · intro h
    by_contra hne
    obtain ⟨k, hk⟩ := exists_pow_lt_of_lt_one (lt_of_le_of_ne h0 (Ne.symm hne))
      (show (1 / 2 : Rat) < 1 by norm_num)
    have hpos : (0 : Rat) < (1 / 2) ^ k := by positivity
    rcases canonical_constant_iff.mp (h _ (reachable_half h0 h1 k)) with hzero | hlt
    · exact hpos.ne' hzero
    · rw [abs_of_pos hpos] at hlt
      exact absurd hlt (not_lt.mpr hk.le)
  · rintro rfl p hp
    exact hp.canonical_of_admits_all le_rfl h1

/-- **Canonical form is kept by everything but numbers from outside and quotients.** All polynomials
    that operations make have ascending monomials and no zero coefficient. They have none within
    the tolerance where what comes from outside and what division returns has none, and for both
    it is known when. The laws of zero and one on the left hold for canonical polynomials alone; so
    they hold for all that can be made, as canonical form does, only if the tolerance is zero. -/
theorem reachable_canonical (h0 : 0 ≤ ε) (h1 : ε < 1) :
    (∀ p, Reachable ε (fun _ => True) p → Canonical 0 p) ∧
    (∀ p, Reachable ε (Canonical ε) p → Canonical ε p) ∧
    (∀ x : Float, Canonical ε ((scalars ε).ofFloat x) ↔ x.toRat0 = 0 ∨ ε < |x.toRat0|) ∧
    (∀ p q r, Reachable ε (fun _ => True) p → (scalars ε).div p q = .ok r →
      ∃ d, q.constant? = some d ∧
        (Canonical ε r ↔ ∀ (m : Monomial) c, p.terms[m]? = some c → ε * |d| < |c|)) ∧
    (∀ p, Reachable ε (fun _ => True) p →
      (scalars ε).add p (scalars ε).zero = p ∧
      ((scalars ε).add (scalars ε).zero p = p ↔ Canonical ε p) ∧
      ((scalars ε).mul (scalars ε).one p = p ↔ Canonical ε p)) ∧
    (∀ p q, Canonical ε p → Canonical ε q → (scalars ε).add p q = (scalars ε).add q p) ∧
    ((∀ p, Reachable ε (fun _ => True) p → Canonical ε p) ↔ ε = 0) := by
  refine ⟨fun p hp => hp.canonical_of_admits_all h0 h1,
    fun p hp => hp.canonical_of_admits_canonical h1, fun x => canonical_constant_iff,
    fun p q r hp hr => ?_, fun p hp => ?_, fun p q hp hq => hp.add_comm hq,
    forall_reachable_canonical_iff h0 h1⟩
  · exact canonical_div_iff h0 (hp.canonical_of_admits_all h0 h1).ascending hr
  · have hasc := (hp.canonical_of_admits_all h0 h1).ascending
    have hone : (scalars ε).one = constant 1 := by
      rw [← Int.cast_one]
      rfl
    refine ⟨add_zero_eq p, zero_add_eq_iff hasc, ?_⟩
    rw [hone]
    show mul ε (constant 1) p = p ↔ _
    rw [one_mul_eq hasc, zero_add_eq_iff hasc]

/-- One divided by two integers of 32 bits is within a tolerance of `10 ^ (-12)`, and zero on the
    left does not give it back. -/
theorem reachable_canonical_quotient :
    let ε : Rat := 1 / 10 ^ 12
    let p : Polynomial Rat := constant (1 / 10 ^ 13)
    (0 ≤ ε ∧ ε < 1 ∧ Reachable ε (fun _ => True) p) ∧ Canonical 0 p ∧
      (scalars ε).add p (scalars ε).zero = p ∧ (scalars ε).add (scalars ε).zero p ≠ p := by
  intro ε p
  have h0 : 0 ≤ ε := by norm_num [ε]
  have h1 : ε < 1 := by norm_num [ε]
  have hdiv : ∀ (c : Rat) (m : Int), c ≠ 0 → ε < |(m : Rat)| →
      (scalars ε).div (constant c) ((scalars ε).ofInt m) = .ok (constant (c / (m : Rat))) :=
    fun c m hc hm => div_constant hc h0 hm
  have hfirst := hdiv 1 (10 ^ 6) one_ne_zero (by norm_num [ε])
  have hsecond := hdiv (1 / (10 ^ 6 : Int)) (10 ^ 7) (by norm_num) (by norm_num [ε])
  have hvalue : (1 / (10 ^ 6 : Int) / (10 ^ 7 : Int) : Rat) = 1 / 10 ^ 13 := by norm_num
  rw [hvalue] at hsecond
  have hp : Reachable ε (fun _ => True) p :=
    .div (.div .one (.ofInt _) hfirst trivial) (.ofInt _) hsecond trivial
  obtain ⟨hzero, -, -, -, hlaws, -⟩ := reachable_canonical h0 h1
  obtain ⟨hright, hleft, -⟩ := hlaws p hp
  refine ⟨⟨h0, h1, hp⟩, hzero p hp, hright, fun h => ?_⟩
  rcases canonical_constant_iff.mp (hleft.mp h) with hc | hc
  · norm_num at hc
  · norm_num [ε, abs_of_pos] at hc

end Polynomial

end GeometricAlgebra
