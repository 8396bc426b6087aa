import GeometricAlgebra.Proofs.Multivector.View
import GeometricAlgebra.Proofs.Polynomial.Terms

set_option autoImplicit false

/-! # Polynomials are a ring

Where numbers count exactly, the operations on polynomials are those of `ℤ[atoms]`: each denotes
what it is called for, whatever cancels. So an expression over integers and atoms has the one value
that its element of the ring determines (`Expression.denotes_value`), and it is compared and tested
for zero as that element is.

Evaluation sends every atom to its value. It needs one for each atom that is left in a term, and
none for those that have cancelled; then it is the homomorphism that these values determine
(`Denotes.eval_eq`). -/

namespace GeometricAlgebra

namespace Polynomial

open Coefficient MvPolynomial

variable {κ : Type} [Coefficient κ] {ε : κ} {p q : Polynomial κ} {P Q : MvPolynomial String ℤ}

/-! ## Operations -/

theorem denotes_zero : (zero : Polynomial κ).Denotes 0 := by
  intro m
  simp [zero]

/-- A polynomial of one term. -/
theorem denotes_insert {m : Monomial} (hm : Ascending m) {z : Int} (hz : z ≠ 0) :
    Denotes (κ := κ) ⟨(∅ : Std.ExtTreeMap Monomial κ).insert m (ofInt z)⟩
      (monomial (powers m) z) := by
  intro n
  rw [Std.ExtTreeMap.getElem?_insert, coeff_monomial]
  by_cases hmn : m = n
  · subst hmn
    simp [hm, hz]
  · rw [if_neg (mt Std.compare_eq_iff_eq.mp hmn), Std.ExtTreeMap.getElem?_empty, if_neg]
    rintro ⟨hn, hne⟩
    exact hne (if_neg (mt (powers_eq_iff hm hn).mp hmn))

theorem denotes_constant (hε : CountsExactly ε) (z : Int) :
    (constant (ofInt z) : Polynomial κ).Denotes (C z) := by
  rw [constant]
  by_cases hz : z = 0
  · rw [if_pos ((hε.eq_zero z).mpr hz), hz, map_zero]
    exact denotes_zero
  · rw [if_neg (mt (hε.eq_zero z).mp hz), C_apply, ← powers_nil]
    exact denotes_insert List.Pairwise.nil hz

theorem denotes_atom (a : String) : (atom a : Polynomial κ).Denotes (X a) := by
  rw [X, ← powers_singleton]
  exact denotes_insert (List.pairwise_singleton _ _) one_ne_zero

theorem Denotes.add (hε : CountsExactly ε) (hp : p.Denotes P) (hq : q.Denotes Q) :
    (Polynomial.add ε p q).Denotes (P + Q) := by
  rw [Polynomial.add, Std.ExtTreeMap.foldl_eq_foldl_toList, ← hq.sum_part]
  refine foldl_adds (P := fun t R => Denotes ⟨t⟩ R) (fun t ht u R hR => ?_) hp
  obtain ⟨hm, -, hc⟩ := hq.of_mem_toList ht
  rw [hc]
  exact hR.addTerm hε hm _

theorem Denotes.sub (hε : CountsExactly ε) (hp : p.Denotes P) (hq : q.Denotes Q) :
    (Polynomial.sub ε p q).Denotes (P - Q) := by
  have hsum : P - Q = P + (q.terms.toList.map fun t => -part Q t).sum := by
    have hneg : (q.terms.toList.map fun t => -part Q t).sum
        = -(q.terms.toList.map (part Q)).sum := by
      rw [List.sum_neg, List.map_map]
      rfl
    rw [hneg, hq.sum_part, sub_eq_add_neg]
  rw [Polynomial.sub, Std.ExtTreeMap.foldl_eq_foldl_toList, hsum]
  refine foldl_adds (P := fun t R => Denotes ⟨t⟩ R) (fun t ht u R hR => ?_) hp
  obtain ⟨hm, -, hc⟩ := hq.of_mem_toList ht
  rw [hc, hε.neg, part, ← map_neg]
  exact hR.addTerm hε hm _

theorem Denotes.neg (hε : CountsExactly ε) (hp : p.Denotes P) : p.neg.Denotes (-P) := by
  intro m
  rw [Polynomial.neg, Std.ExtTreeMap.getElem?_map, hp m, coeff_neg]
  by_cases hm : Ascending m ∧ P.coeff (powers m) ≠ 0
  · rw [if_pos hm, if_pos ⟨hm.1, neg_ne_zero.mpr hm.2⟩, Option.map_some, hε.neg]
  · rw [if_neg hm, if_neg fun h => hm ⟨h.1, neg_ne_zero.mp h.2⟩, Option.map_none]

/-- A product is distributed over the terms of both factors. -/
theorem Denotes.mul (hε : CountsExactly ε) (hp : p.Denotes P) (hq : q.Denotes Q) :
    (Polynomial.mul ε p q).Denotes (P * Q) := by
  have hsum : P * Q = 0 + (p.terms.toList.map fun s => part P s * Q).sum := by
    rw [zero_add, List.sum_map_mul_right, hp.sum_part]
  rw [Polynomial.mul, Std.ExtTreeMap.foldl_eq_foldl_toList, hsum]
  refine foldl_adds (P := fun t R => Denotes ⟨t⟩ R) (fun s hs t R hR => ?_) denotes_zero
  have hrow : part P s * Q = (q.terms.toList.map fun u => part P s * part Q u).sum := by
    rw [List.sum_map_mul_left, hq.sum_part]
  rw [Std.ExtTreeMap.foldl_eq_foldl_toList, hrow]
  refine foldl_adds (P := fun t R => Denotes ⟨t⟩ R) (fun u hu t R hR => ?_) hR
  obtain ⟨-, -, hc⟩ := hp.of_mem_toList hs
  obtain ⟨-, -, hd⟩ := hq.of_mem_toList hu
  rw [hc, hd, hε.mul, part, part, monomial_mul, ← powers_mulMonomial]
  exact hR.addTerm hε (ascending_mulMonomial _ _) _

/-! ## Evaluation -/

section Folds

variable {β γ δ χ : Type}

/-- A fold on values that stand for others is a fold on those others. -/
theorem foldlM_eq_ok_of_represent {l : List β} {f : γ → β → Except χ γ} {g : δ → β → δ}
    (r : δ → γ) (h : ∀ x ∈ l, ∀ d, f (r d) x = .ok (r (g d x))) (d : δ) :
    l.foldlM f (r d) = .ok (r (l.foldl g d)) := by
  induction l generalizing d with
  | nil => rfl
  | cons x l ih =>
      rw [List.foldlM_cons, h x List.mem_cons_self]
      exact ih (fun y hy => h y (List.mem_cons_of_mem x hy)) _

/-- Steps that fail or not whatever came before fail together iff one of them does. -/
theorem foldlM_cases {P : β → Prop} {E : β → χ → Prop} {l : List β} {f : γ → β → Except χ γ}
    (h : ∀ x ∈ l, ∀ c, (P x ∧ ∃ d, f c x = .ok d) ∨ ∃ e, E x e ∧ f c x = .error e) (c : γ) :
    ((∀ x ∈ l, P x) ∧ ∃ d, l.foldlM f c = .ok d) ∨
      ∃ x ∈ l, ∃ e, E x e ∧ l.foldlM f c = .error e := by
  induction l generalizing c with
  | nil => exact Or.inl ⟨by simp, c, rfl⟩
  | cons x l ih =>
      rw [List.foldlM_cons]
      rcases h x List.mem_cons_self c with ⟨hx, d, hd⟩ | ⟨e, he, hfail⟩
      · rw [hd]
        rcases ih (fun y hy => h y (List.mem_cons_of_mem x hy)) d with ⟨hl, hok⟩ | ⟨y, hy, hfail⟩
        · exact Or.inl ⟨List.forall_mem_cons.mpr ⟨hx, hl⟩, hok⟩
        · exact Or.inr ⟨y, List.mem_cons_of_mem x hy, hfail⟩
      · rw [hfail]
        exact Or.inr ⟨x, List.mem_cons_self, e, he, rfl⟩

end Folds

section Evaluation

variable {value : String → Option κ}

theorem evalMonomial_eq (hε : CountsExactly ε) {v : String → Int} {m : Monomial}
    (hm : ∀ a ∈ m, value a = some (ofInt (v a))) (z : Int) :
    evalMonomial value (ofInt z) m = .ok (ofInt (z * (m.map v).prod)) := by
  have hfold : ∀ (l : List String) (z : Int),
      l.foldl (fun z a => z * v a) z = z * (l.map v).prod := by
    intro l
    induction l with
    | nil => simp
    | cons a l ih =>
        intro z
        rw [List.foldl_cons, ih, List.map_cons, List.prod_cons, mul_assoc]
  rw [evalMonomial, foldlM_eq_ok_of_represent (g := fun z a => z * v a) ofInt, hfold]
  intro a ha z
  simp only [hm a ha, hε.mul]

/-- **Evaluation is the homomorphism that the values of the atoms determine.** -/
theorem Denotes.eval_eq (hε : CountsExactly ε) (hp : p.Denotes P) {v : String → Int}
    (hv : ∀ a ∈ P.vars, value a = some (ofInt (v a))) :
    p.eval value = .ok (ofInt (MvPolynomial.eval v P)) := by
  have hstep : ∀ t ∈ p.terms.toList, ∀ z : Int,
      (do return (ofInt z : κ) + (← evalMonomial value t.2 t.1))
        = (.ok (ofInt (z + MvPolynomial.eval v (part P t))) : Except Error κ) := by
    intro t ht z
    obtain ⟨-, -, hc⟩ := hp.of_mem_toList ht
    have hatoms : ∀ a ∈ t.1, value a = some (ofInt (v a)) := fun a ha =>
      hv a (hp.mem_vars_iff.mpr ⟨t.1, mem_terms_of_mem_toList ht, ha⟩)
    rw [hc, evalMonomial_eq hε hatoms, part, eval_monomial_powers, ← hε.add]
    rfl
  have hsum : p.terms.toList.foldl (fun z t => z + MvPolynomial.eval v (part P t)) 0
      = MvPolynomial.eval v P := by
    conv_rhs => rw [← hp.sum_part, map_list_sum, List.map_map, List.sum_eq_foldl, List.foldl_map]
    rfl
  rw [Polynomial.eval, foldlM_eq_ok_of_represent ofInt hstep, hsum]

theorem evalMonomial_cases (value : String → Option κ) (m : Monomial) (c : κ) :
    ((∀ a ∈ m, value a ≠ none) ∧ ∃ d, evalMonomial value c m = .ok d) ∨
      ∃ a ∈ m, ∃ e, (value a = none ∧ e = .missingAtom a) ∧ evalMonomial value c m = .error e := by
  refine foldlM_cases (fun a _ c => ?_) c
  cases ha : value a with
  | none => exact Or.inr ⟨_, ⟨rfl, rfl⟩, rfl⟩
  | some v => exact Or.inl ⟨by simp, _, rfl⟩

/-- Evaluation succeeds iff every atom of a term has a value, and else names one that has none. -/
theorem eval_cases (value : String → Option κ) (p : Polynomial κ) :
    ((∀ m ∈ p.terms, ∀ a ∈ m, value a ≠ none) ∧ ∃ c, p.eval value = .ok c) ∨
      ∃ m ∈ p.terms, ∃ a ∈ m, value a = none ∧ p.eval value = .error (.missingAtom a) := by
  have hcases := foldlM_cases (l := p.terms.toList)
    (f := fun total t => do return total + (← evalMonomial value t.2 t.1))
    (P := fun t => ∀ a ∈ t.1, value a ≠ none)
    (E := fun t e => ∃ a ∈ t.1, value a = none ∧ e = .missingAtom a)
    (fun t _ c => by
      rcases evalMonomial_cases value t.1 t.2 with ⟨hall, d, hd⟩ | ⟨a, ha, e, he, hfail⟩
      · exact Or.inl ⟨hall, c + d, by rw [hd]; rfl⟩
      · exact Or.inr ⟨e, ⟨a, ha, he⟩, by rw [hfail]; rfl⟩) (ofInt 0)
  rcases hcases with ⟨hall, hok⟩ | ⟨t, ht, e, ⟨a, ha, hnone, rfl⟩, hfail⟩
  · refine Or.inl ⟨fun m hm => ?_, hok⟩
    obtain ⟨c, hc⟩ := Option.isSome_iff_exists.mp (Std.ExtTreeMap.mem_iff_isSome_getElem?.mp hm)
    exact hall (m, c) (Std.ExtTreeMap.mem_toList_iff_getElem?_eq_some.mpr hc)
  · exact Or.inr ⟨t.1, mem_terms_of_mem_toList ht, a, ha, hnone, hfail⟩

end Evaluation

/-! ## Integral polynomials -/

/-- Monomials ascend, and no coefficient is anything but an integer other than zero. -/
def IsIntegral (p : Polynomial κ) : Prop :=
  ∀ (m : Monomial) (c : κ), p.terms[m]? = some c →
    m.Pairwise (· ≤ ·) ∧ ∃ z : Int, z ≠ 0 ∧ c = ofInt z

theorem Denotes.isIntegral (hp : p.Denotes P) : p.IsIntegral := by
  intro m c hc
  obtain ⟨hm, hne, rfl⟩ := hp.getElem?_iff.mp hc
  exact ⟨hm, _, hne, rfl⟩

/-- Every integral polynomial denotes an element of the ring. -/
theorem IsIntegral.exists_denotes (hε : CountsExactly ε) (hp : p.IsIntegral) :
    ∃ P, p.Denotes P := by
  choose ascend hascend hpowers using exists_powers_eq
  have hinv : ∀ m, Ascending m → ascend (powers m) = m := fun m hm =>
    (powers_eq_iff (hascend _) hm).mp (hpowers _)
  let integer : κ → Int := Function.invFun ofInt
  have hinteger : ∀ z : Int, integer (ofInt z) = z :=
    Function.leftInverse_invFun hε.ofInt_injective
  let F : (String →₀ ℕ) → Int := fun s => (p.terms[ascend s]?.map integer).getD 0
  -- all coefficients that are not zero are those of some term
  have hF : ∀ s, (∑ u ∈ (p.terms.keys.map powers).toFinset, monomial u (F u)).coeff s = F s := by
    intro s
    simp only [coeff_sum, coeff_monomial, Finset.sum_ite_eq']
    refine ite_eq_left_iff.mpr fun hs => ?_
    have hnone : p.terms[ascend s]? = none := by
      refine Std.ExtTreeMap.getElem?_eq_none fun hmem => hs (List.mem_toFinset.mpr ?_)
      exact List.mem_map.mpr ⟨ascend s, Std.ExtTreeMap.mem_keys.mpr hmem, hpowers s⟩
    simp [F, hnone]
  refine ⟨∑ u ∈ (p.terms.keys.map powers).toFinset, monomial u (F u), fun m => ?_⟩
  rw [hF]
  cases hc : p.terms[m]? with
  | none =>
      refine (if_neg fun h => h.2 ?_).symm
      simp [F, hinv m h.1, hc]
  | some c =>
      obtain ⟨hm, z, hz, rfl⟩ := hp m c hc
      have hvalue : F (powers m) = z := by simp [F, hinv m hm, hc, hinteger]
      rw [hvalue, if_pos ⟨hm, hz⟩]

/-! ## Expressions -/

/-- What can be written with integers, atoms and the operations of a ring. -/
inductive Expression where
  | zero
  | one
  | ofInt (z : Int32)
  | atom (name : String)
  | add (x y : Expression)
  | sub (x y : Expression)
  | neg (x : Expression)
  | mul (x y : Expression)

namespace Expression

/-- The polynomial that the arithmetic on polynomials gives. -/
def value (ε : κ) : Expression → Polynomial κ
  | zero => (scalars ε).zero
  | one => (scalars ε).one
  | ofInt z => (scalars ε).ofInt z.toInt
  | atom name => Polynomial.atom name
  | add x y => (scalars ε).add (x.value ε) (y.value ε)
  | sub x y => (scalars ε).sub (x.value ε) (y.value ε)
  | neg x => (scalars ε).neg (x.value ε)
  | mul x y => (scalars ε).mul (x.value ε) (y.value ε)

/-- The element of the ring. -/
noncomputable def denote : Expression → MvPolynomial String ℤ
  | zero => 0
  | one => 1
  | ofInt z => C z.toInt
  | atom name => X name
  | add x y => x.denote + y.denote
  | sub x y => x.denote - y.denote
  | neg x => -x.denote
  | mul x y => x.denote * y.denote

/-- **The value of an expression denotes what the expression does.** -/
theorem denotes_value (hε : CountsExactly ε) (e : Expression) : (e.value ε).Denotes e.denote := by
  induction e with
  | zero => exact denotes_zero
  | one =>
      rw [denote, ← map_one C]
      exact denotes_constant hε 1
  | ofInt z => exact denotes_constant hε z.toInt
  | atom name => exact denotes_atom name
  | add x y ihx ihy => exact ihx.add hε ihy
  | sub x y ihx ihy => exact ihx.sub hε ihy
  | neg x ihx => exact ihx.neg hε
  | mul x y ihx ihy => exact ihx.mul hε ihy

theorem exists_denote_eq_C (z : Int) : ∃ e : Expression, e.denote = C z := by
  induction z with
  | zero => exact ⟨zero, (map_zero C).symm⟩
  | succ n ih =>
      obtain ⟨e, he⟩ := ih
      exact ⟨add e one, by rw [denote, denote, he, map_add, map_one]⟩
  | pred n ih =>
      obtain ⟨e, he⟩ := ih
      exact ⟨sub e one, by rw [denote, denote, he, map_sub, map_one]⟩

/-- Every element of the ring can be written. -/
theorem exists_denote_eq (P : MvPolynomial String ℤ) : ∃ e : Expression, e.denote = P := by
  induction P using MvPolynomial.induction_on with
  | C z => exact exists_denote_eq_C z
  | add P Q hP hQ =>
      obtain ⟨x, rfl⟩ := hP
      obtain ⟨y, rfl⟩ := hQ
      exact ⟨add x y, rfl⟩
  | mul_X P a hP =>
      obtain ⟨x, rfl⟩ := hP
      exact ⟨mul x (atom a), rfl⟩

/-- **Polynomials are the ring of integer polynomials in the atoms.** Where numbers count exactly,
    the values of expressions are integral; two are the same iff the expressions denote the same
    element of `ℤ[atoms]`, of which every element can be written, and only zero counts as zero.
    Values for the atoms that are left in the terms make evaluation the homomorphism that they
    determine, and it fails iff an atom that is left has none, naming one. -/
theorem value_ring (hε : CountsExactly ε) :
    (∀ e : Expression, (e.value ε).IsIntegral) ∧
    (∀ e e' : Expression, e.value ε = e'.value ε ↔ e.denote = e'.denote) ∧
    (∀ P : MvPolynomial String ℤ, ∃ e : Expression, e.denote = P) ∧
    (∀ e : Expression, (scalars ε).isZero (e.value ε) = true ↔ e.denote = 0) ∧
    (∀ (e : Expression) (value : String → Option κ) (v : String → Int),
      (∀ m ∈ (e.value ε).terms, ∀ a ∈ m, value a = some (Coefficient.ofInt (v a))) →
      (e.value ε).eval value = .ok (Coefficient.ofInt (MvPolynomial.eval v e.denote))) ∧
    (∀ (e : Expression) (value : String → Option κ),
      ((∃ err, (e.value ε).eval value = .error err) ↔
        ∃ m ∈ (e.value ε).terms, ∃ a ∈ m, value a = none) ∧
      ∀ err, (e.value ε).eval value = .error err →
        ∃ m ∈ (e.value ε).terms, ∃ a ∈ m, value a = none ∧ err = .missingAtom a) := by
  refine ⟨fun e => (denotes_value hε e).isIntegral, fun e e' => ⟨fun h => ?_, fun h => ?_⟩,
    exists_denote_eq, fun e => (denotes_value hε e).isZero_iff, fun e value v hv => ?_,
    fun e value => ?_⟩
  · have he := denotes_value hε e
    rw [h] at he
    exact he.unique_right hε (denotes_value hε e')
  · have he := denotes_value hε e
    rw [h] at he
    exact he.unique_left (denotes_value hε e')
  · have he := denotes_value hε e
    refine he.eval_eq hε fun a ha => ?_
    obtain ⟨m, hm, ham⟩ := he.mem_vars_iff.mp ha
    exact hv m hm a ham
  · rcases eval_cases value (e.value ε) with ⟨hall, c, hc⟩ | ⟨m, hm, a, ha, hnone, hfail⟩
    · rw [hc]
      refine ⟨iff_of_false (by simp) ?_, by simp⟩
      rintro ⟨m, hm, a, ha, hnone⟩
      exact hall m hm a ha hnone
    · rw [hfail]
      refine ⟨iff_of_true ⟨_, rfl⟩ ⟨m, hm, a, ha, hnone⟩, ?_⟩
      rintro err ⟨⟩
      exact ⟨m, hm, a, ha, hnone, rfl⟩

/-- Of `a + (b a - a b)` only `a` is left, so the value of `b` does not matter, with fractions and
    a tolerance of `10 ^ (-12)`. -/
theorem value_ring_fractions :
    let ε : Rat := 1 / 10 ^ 12
    let a : Expression := .atom "a"
    let b : Expression := .atom "b"
    let x : Expression := .add a (.sub (.mul b a) (.mul a b))
    CountsExactly ε ∧ x.value ε = a.value ε ∧ (scalars ε).isZero (Expression.value ε (.sub x a)) ∧
      (x.value ε).eval (fun s => if s = "a" then some 5 else none) = .ok 5 ∧
      ∃ err, (x.value ε).eval (fun s => if s = "b" then some 5 else none) = .error err := by
  intro ε a b x
  have hε : CountsExactly ε := countsExactly_rat (by norm_num [ε]) (by norm_num [ε])
  obtain ⟨-, hvalue, -, hzero, heval, hfail⟩ := value_ring hε
  have hdenote : x.denote = X "a" := by
    simp only [x, a, b, denote]
    ring
  have hterms : x.value ε = a.value ε := (hvalue x a).mpr hdenote
  have hmem : ∀ m : Monomial, m ∈ (a.value ε).terms ↔ m = ["a"] := by
    intro m
    simp only [a, value, Polynomial.atom, Std.ExtTreeMap.mem_insert, Std.ExtTreeMap.not_mem_empty,
      or_false]
    exact Std.compare_eq_iff_eq.trans eq_comm
  refine ⟨hε, hterms, (hzero _).mpr ?_, ?_, ((hfail x _).1).mpr ?_⟩
  · rw [denote, hdenote]
    exact sub_self _
  · rw [heval x _ (fun _ => 5), hdenote, eval_X]
    · rfl
    · rw [hterms]
      intro m hm
      rw [(hmem m).mp hm]
      simp [Coefficient.ofInt]
  · rw [hterms]
    exact ⟨["a"], (hmem _).mpr rfl, "a", by simp, by simp⟩

end Expression

end Polynomial

end GeometricAlgebra
