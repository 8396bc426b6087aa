import GeometricAlgebra.CommandLine.Run
import GeometricAlgebra.Proofs.Blade.Order
import GeometricAlgebra.Proofs.Multivector.Writing
import GeometricAlgebra.Proofs.Polynomial.Pairs

set_option autoImplicit false

/-! # Symbolic products

A generic multivector has a term for every blade that is asked for, whose coefficient is an atom of
its own (`generic_spec`). The pairs of terms of two of them are the pairs of such blades, so either
way of finding the pairs collects the same polynomials (`collects_pairs`): those that tabulate the
signs of the product. What the command prints is the text of these, by grade and then by blade
(`symbolic_eq`). -/

namespace GeometricAlgebra

open Coefficient

/-! ## Generic multivectors -/

theorem Multivector.mem_terms_ofBlades {α : Type} {l : List (Nat × α)}
    (hl : (l.map Prod.fst).Nodup) {t : Nat × α} : t ∈ (ofBlades l).terms ↔ t ∈ l :=
  Std.ExtTreeMap.mem_toList_iff_getElem?_eq_some.trans (Terms.getElem?_ofList_iff hl)

namespace CommandLine

open BladeTree

variable {κ : Type} [Coefficient κ] {ε : κ}

/-- The blade belongs to an `n`-dimensional algebra, and has the grade that is asked for. -/
def Allowed (n : Nat) (grade? : Option Nat) (b : Nat) : Prop :=
  b < 2 ^ n ∧ ∀ g ∈ grade?, Blade.grade b = g

section Generic

variable {n : Nat} {grade? : Option Nat}

/-- A grade is refused if no blade can have it. -/
theorem exists_chosenGrades_iff :
    (∃ grades, chosenGrades n grade? = .ok grades) ↔ ∀ g ∈ grade?, g ≤ n := by
  cases grade? with
  | none => simp [chosenGrades]
  | some g =>
      rw [chosenGrades]
      by_cases h : g > n
      · simp [h]
      · simp [h, not_lt.mp h]

theorem chosenGrades_spec {grades : List Nat} (h : chosenGrades n grade? = .ok grades) :
    grades.Nodup ∧ ∀ b < 2 ^ n, Blade.grade b ∈ grades ↔ ∀ g ∈ grade?, Blade.grade b = g := by
  cases grade? with
  | none =>
      cases h
      refine ⟨List.nodup_range, fun b hb => ?_⟩
      simpa [Nat.lt_succ_iff] using Blade.grade_le_of_lt hb
  | some g =>
      rw [chosenGrades] at h
      split at h
      · cases h
      · cases h
        simp

theorem mem_bladesOf (hn : n ≤ maxDimension) {grades : List Nat}
    (h : chosenGrades n grade? = .ok grades) {b : Nat} :
    b ∈ bladesOf n grades ↔ Allowed n grade? b := by
  simp only [bladesOf, List.mem_flatMap, Blade.mem_ofGrade hn, Allowed]
  constructor
  · rintro ⟨g, hg, hb, rfl⟩
    exact ⟨hb, ((chosenGrades_spec h).2 b hb).mp hg⟩
  · rintro ⟨hb, hgrade⟩
    exact ⟨_, ((chosenGrades_spec h).2 b hb).mpr hgrade, hb, rfl⟩

theorem nodup_bladesOf (hn : n ≤ maxDimension) {grades : List Nat} (h : grades.Nodup) :
    (bladesOf n grades).Nodup := by
  refine List.nodup_flatMap.mpr ⟨fun g _ => ?_, h.imp fun hne b hb hb' => ?_⟩
  · exact (Blade.pairwise_ofGrade g hn).imp Nat.ne_of_lt
  · exact hne (((Blade.mem_ofGrade hn).mp hb).2.symm.trans ((Blade.mem_ofGrade hn).mp hb').2)

theorem exists_generic_iff (letter : String) :
    (∃ mv : Multivector (Polynomial κ), generic letter n grade? = .ok mv) ↔
      ∀ g ∈ grade?, g ≤ n := by
  rw [← exists_chosenGrades_iff]
  unfold generic
  cases chosenGrades n grade? with
  | error e => simp
  | ok grades => simp

/-- **A generic multivector** has every blade that is allowed, with its own atom. -/
theorem generic_spec (hn : n ≤ maxDimension) {letter : String} {mv : Multivector (Polynomial κ)}
    (h : generic letter n grade? = .ok mv) :
    mv.InRange n ∧ ∀ t, t ∈ mv.terms ↔
      Allowed n grade? t.1 ∧ t.2 = .atom (letter ++ toString t.1) := by
  obtain ⟨grades, hgrades, h⟩ := bind_eq_ok_iff.mp h
  cases h
  have hmem : ∀ b, b ∈ bladesOf n grades ↔ Allowed n grade? b := fun _ => mem_bladesOf hn hgrades
  refine ⟨Terms.within_ofList (List.forall_mem_map.mpr fun b hb => ((hmem b).mp hb).1), fun t => ?_⟩
  rw [Multivector.mem_terms_ofBlades, List.mem_map]
  constructor
  · rintro ⟨b, hb, rfl⟩
    exact ⟨(hmem b).mp hb, rfl⟩
  · rintro ⟨hb, hatom⟩
    exact ⟨t.1, (hmem t.1).mpr hb, Prod.ext rfl hatom.symm⟩
  -- no blade comes twice
  rw [List.map_map]
  exact (List.map_id _).symm ▸ nodup_bladesOf hn (chosenGrades_spec hgrades).1

end Generic

/-- The two blades are allowed, and their product is the blade `r` with a sign. -/
structure Meets (sig : Signature) (k : Product) (gradeA? gradeB? : Option Nat) (r a b : Nat) :
    Prop where
  left : Allowed sig.dimension gradeA? a
  right : Allowed sig.dimension gradeB? b
  blade : a ^^^ b = r
  sign : Product.sign k sig a b ≠ 0

/-- The polynomial has, for every two blades that meet at `r`, the monomial of their atoms with the
    sign of their product for a coefficient, and nothing else. -/
def Tabulates (sig : Signature) (k : Product) (gradeA? gradeB? : Option Nat) (r : Nat)
    (p : Polynomial κ) : Prop :=
  ∀ m c, p.terms[m]? = some c ↔ ∃ a b, Meets sig k gradeA? gradeB? r a b ∧
    m = Polynomial.atomsOf a b ∧ c = ofInt (Product.sign k sig a b)

variable {sig : Signature} {k : Product} {gradeA? gradeB? : Option Nat}

/-- Where two blades meet, something is tabulated. -/
theorem Tabulates.isZero_eq_false {r : Nat} {p : Polynomial κ}
    (h : Tabulates sig k gradeA? gradeB? r p) (hr : ∃ x y, Meets sig k gradeA? gradeB? r x y) :
    p.isZero = false := by
  obtain ⟨x, y, hxy⟩ := hr
  have hterm := (h (Polynomial.atomsOf x y) _).mpr ⟨x, y, hxy, rfl, rfl⟩
  by_contra hzero
  rw [Bool.not_eq_false, Polynomial.isZero_iff] at hzero
  rw [hzero, Polynomial.zero, Std.ExtTreeMap.getElem?_empty] at hterm
  cases hterm

/-! ## Products of generic multivectors -/

section Product

variable {a b : Multivector (Polynomial κ)}

/-- Pairs of terms of generic multivectors are the pairs of allowed blades. -/
theorem mem_signedPairs_generic (ha : generic "a" sig.dimension gradeA? = .ok a)
    (hb : generic "b" sig.dimension gradeB? = .ok b) {q : SignedPair (Polynomial κ)} :
    q ∈ signedPairs k sig a.terms b.terms ↔
      Polynomial.IsGeneric q ∧ q.sign = Product.sign k sig q.first.1 q.second.1 ∧
        Meets sig k gradeA? gradeB? q.blade q.first.1 q.second.1 := by
  rw [mem_signedPairs, (generic_spec sig.dimension_le ha).2, (generic_spec sig.dimension_le hb).2]
  constructor
  · rintro ⟨⟨hleft, hfirst⟩, ⟨hright, hsecond⟩, hsign, hne⟩
    have hunit := Product.sign_cases k sig q.first.1 q.second.1
    rw [← hsign] at hunit
    exact ⟨⟨hfirst, hsecond, hunit.resolve_left hne⟩, hsign, hleft, hright, rfl, hsign ▸ hne⟩
  · rintro ⟨hq, hsign, hmeets⟩
    exact ⟨⟨hmeets.left, hq.first⟩, ⟨hmeets.right, hq.second⟩, hsign, hsign ▸ hmeets.sign⟩

theorem exists_mem_signedPairs (ha : generic "a" sig.dimension gradeA? = .ok a)
    (hb : generic "b" sig.dimension gradeB? = .ok b) {P : Nat → Nat → Int → Prop} {r : Nat} :
    (∃ q ∈ signedPairs k sig a.terms b.terms, q.blade = r ∧ P q.first.1 q.second.1 q.sign) ↔
      ∃ x y, Meets sig k gradeA? gradeB? r x y ∧ P x y (Product.sign k sig x y) := by
  constructor
  · rintro ⟨q, hq, rfl, hP⟩
    obtain ⟨-, hsign, hmeets⟩ := (mem_signedPairs_generic ha hb).mp hq
    exact ⟨_, _, hmeets, hsign ▸ hP⟩
  · rintro ⟨x, y, hmeets, hP⟩
    have hunit := (Product.sign_cases k sig x y).resolve_left hmeets.sign
    refine ⟨⟨(x, .atom ("a" ++ toString x)), (y, .atom ("b" ++ toString y)),
      Product.sign k sig x y⟩, (mem_signedPairs_generic ha hb).mpr ⟨⟨rfl, rfl, hunit⟩, rfl, ?_⟩,
      hmeets.blade, hP⟩
    exact ⟨hmeets.left, hmeets.right, rfl, hmeets.sign⟩

theorem nodup_atoms (ha : generic "a" sig.dimension gradeA? = .ok a)
    (hb : generic "b" sig.dimension gradeB? = .ok b) :
    ((signedPairs k sig a.terms b.terms).map SignedPair.atoms).Nodup := by
  have hn := sig.dimension_le
  refine List.Nodup.map_on (fun p hp q hq heq => ?_) (nodup_signedPairs k sig
    (Multivector.nodup_terms hn (generic_spec hn ha).1).of_map
    (Multivector.nodup_terms hn (generic_spec hn hb).1).of_map)
  obtain ⟨hgeneric, hsign, -⟩ := (mem_signedPairs_generic ha hb).mp hp
  obtain ⟨hgeneric', hsign', -⟩ := (mem_signedPairs_generic ha hb).mp hq
  obtain ⟨hfirst, hsecond⟩ := Polynomial.atomsOf_inj.mp heq
  exact hgeneric.ext hgeneric' hfirst hsecond (by rw [hsign, hsign', hfirst, hsecond])

/-- Either way of finding the pairs collects those that meet. -/
theorem collects_pairs (hε : CountsUnits ε) (s : Strategy)
    (ha : generic "a" sig.dimension gradeA? = .ok a)
    (hb : generic "b" sig.dimension gradeB? = .ok b) :
    let A : Algebra (Polynomial κ) := ⟨sig, Polynomial.scalars ε, s⟩
    Polynomial.Collects (signedPairs k sig a.terms b.terms) (A.productOfPairs k a b) ∧
      Polynomial.Collects (signedPairs k sig a.terms b.terms) (A.productOfTree k a b) := by
  intro A
  have hn := sig.dimension_le
  have hperm := perm_pairsOf k (generic_spec hn ha).1 (generic_spec hn hb).1
  have hgeneric : ∀ q ∈ signedPairs k sig a.terms b.terms, Polynomial.IsGeneric q :=
    fun q hq => ((mem_signedPairs_generic ha hb).mp hq).1
  have hnodup := nodup_atoms (k := k) ha hb
  constructor
  · rw [A.productOfPairs_eq_foldl]
    exact Polynomial.collects_nil.foldl hε rfl hgeneric hnodup
  · rw [A.productOfTree_eq_foldl]
    have h := Polynomial.collects_nil.foldl (A := A) hε rfl
      (fun q hq => hgeneric q (hperm.mem_iff.mp hq)) ((hperm.map _).nodup_iff.mpr hnodup)
    exact h.perm hperm

/-- A product of generic multivectors is the same under every strategy. -/
theorem exists_product_generic (hε : CountsUnits ε)
    (ha : generic "a" sig.dimension gradeA? = .ok a)
    (hb : generic "b" sig.dimension gradeB? = .ok b) :
    ∃ t, Polynomial.Collects (signedPairs k sig a.terms b.terms) t ∧
      ∀ s, (⟨sig, Polynomial.scalars ε, s⟩ : Algebra (Polynomial κ)).product k a b
        = .ok (Terms.compact (Polynomial.scalars ε) t) := by
  have hn := sig.dimension_le
  obtain ⟨hcollects, -⟩ := collects_pairs (k := k) hε .pairwise ha hb
  refine ⟨_, hcollects, fun s => Algebra.product_eq_ok_iff.mpr
    ⟨Algebra.validate_eq_ok_iff.mpr (generic_spec hn ha).1,
      Algebra.validate_eq_ok_iff.mpr (generic_spec hn hb).1, ?_⟩⟩
  obtain ⟨hpairs, htree⟩ := collects_pairs (k := k) hε s ha hb
  split
  · rw [hcollects.unique htree]
  · rw [hcollects.unique hpairs]

end Product

/-! ## The result -/

theorem genericProduct_eq (A : Algebra (Polynomial κ)) (k : Product) (gradeA? gradeB? : Option Nat)
    {a b : Multivector (Polynomial κ)} (ha : generic "a" A.dimension gradeA? = .ok a)
    (hb : generic "b" A.dimension gradeB? = .ok b) :
    genericProduct A k gradeA? gradeB? = (A.product k a b).mapError Failure.refused := by
  rw [genericProduct, ha, hb]
  rfl

/-- **No strategy shows in a product of generic multivectors.** -/
theorem genericProduct_strategy (hε : CountsUnits ε) (sig : Signature) (k : Product)
    (gradeA? gradeB? : Option Nat) (s s' : Strategy) :
    genericProduct (⟨sig, Polynomial.scalars ε, s⟩ : Algebra (Polynomial κ)) k gradeA? gradeB?
      = genericProduct ⟨sig, Polynomial.scalars ε, s'⟩ k gradeA? gradeB? := by
  cases ha : (generic "a" sig.dimension gradeA? : Except _ (Multivector (Polynomial κ))) with
  | error e => simp only [genericProduct, Algebra.dimension, ha]; rfl
  | ok a =>
      cases hb : (generic "b" sig.dimension gradeB? : Except _ (Multivector (Polynomial κ))) with
      | error e => simp only [genericProduct, Algebra.dimension, ha, hb]; rfl
      | ok b =>
          obtain ⟨t, -, hproduct⟩ := exists_product_generic (k := k) hε ha hb
          have heq := fun s =>
            genericProduct_eq ⟨sig, Polynomial.scalars ε, s⟩ k gradeA? gradeB? ha hb
          rw [heq, heq, hproduct, hproduct]

/-- So the command prints the same under every strategy. -/
theorem symbolic_strategy (json : Bool) (kind : String) (gradeA? gradeB? : Option Nat)
    (config : Config) (s : Strategy) :
    symbolic json kind gradeA? gradeB? { config with strategy := s }
      = symbolic json kind gradeA? gradeB? config := by
  have hproduct : ∀ sig k, genericProduct ⟨sig, Scalars.symbolic, s⟩ k gradeA? gradeB?
      = genericProduct ⟨sig, Scalars.symbolic, config.strategy⟩ k gradeA? gradeB? :=
    fun sig k => genericProduct_strategy countsUnits_defaultTolerance sig k gradeA? gradeB? s _
  have hsignature : ({ config with strategy := s } : Config).signature = config.signature := rfl
  simp only [symbolic, hsignature, hproduct]

section Result

variable {a b : Multivector (Polynomial κ)} {t : Terms (Polynomial κ)}
  (ha : generic "a" sig.dimension gradeA? = .ok a) (hb : generic "b" sig.dimension gradeB? = .ok b)
  (ht : Polynomial.Collects (signedPairs k sig a.terms b.terms) t)

include ha hb ht

theorem within_generic : Terms.Within sig.dimension t := by
  intro r hr
  obtain ⟨q, hq, rfl⟩ := (ht.mem_iff r).mp hr
  have hmeets := ((mem_signedPairs_generic ha hb).mp hq).2.2
  exact Nat.xor_lt_two_pow hmeets.left.1 hmeets.right.1

theorem mem_generic_iff {r : Nat} : r ∈ t ↔ ∃ x y, Meets sig k gradeA? gradeB? r x y := by
  have hpairs := exists_mem_signedPairs (k := k) ha hb (P := fun _ _ _ => True) (r := r)
  simp only [and_true] at hpairs
  rw [ht.mem_iff, hpairs]

theorem tabulates_generic {r : Nat} {p : Polynomial κ} (hp : t[r]? = some p) :
    Tabulates sig k gradeA? gradeB? r p := by
  intro m c
  have hat : Polynomial.termsAt t r = p.terms := by rw [Polynomial.termsAt, hp, Option.elim_some]
  rw [← hat, ht.getElem?_iff]
  exact exists_mem_signedPairs ha hb (P := fun x y s => m = Polynomial.atomsOf x y ∧ c = ofInt s)

/-- What is returned is what is collected, as no polynomial in it is zero. -/
theorem mem_terms_generic {ε : κ} (r : Nat) (p : Polynomial κ) :
    (r, p) ∈ (Terms.compact (Polynomial.scalars ε) t).terms ↔ t[r]? = some p := by
  rw [Terms.mem_terms_compact sig.dimension_le (within_generic ha hb ht)]
  refine and_iff_left_of_imp fun hp => (tabulates_generic ha hb ht hp).isZero_eq_false ?_
  exact (mem_generic_iff ha hb ht).mp (Terms.mem_iff_exists_getElem?.mpr ⟨p, hp⟩)

end Result

/-! ## What is printed -/

/-- The lines for the terms of a product: one for each, or all of them as JSON. -/
def linesOf (json : Bool) (rows : List (Nat × Polynomial Float)) : List String :=
  if json then [Json.pretty (.array (rows.map symbolicRow))]
  else if rows.isEmpty then ["0"]
  else rows.map fun t => Blade.name t.1 ++ ": " ++ t.2.toText

/-- By grade, and by blade within a grade. -/
def Ascending (rows : List (Nat × Polynomial Float)) : Prop :=
  rows.Pairwise fun s t => Terms.before s.1 t.1 = true

/-- The command prints the product of the algebra that it is configured for. -/
theorem symbolic_eq {kind : String} {config : Config} (hkind : Product.ofText kind = .ok k)
    (hsig : config.signature = .ok sig) (hn : sig.dimension ≤ maxSymbolicDimension)
    {mv : Multivector (Polynomial Float)}
    (hmv : genericProduct ⟨sig, Scalars.symbolic, config.strategy⟩ k gradeA? gradeB? = .ok mv)
    (json : Bool) :
    symbolic json kind gradeA? gradeB? config
      = .ok (textOf (linesOf json (mv.terms.mergeSort fun s t => Terms.before s.1 t.1))) := by
  have hduring : during .productName (Product.ofText kind) = .ok k := congrArg _ hkind
  refine bind_eq_ok_iff.mpr ⟨k, hduring, bind_eq_ok_iff.mpr ⟨sig, hsig, ?_⟩⟩
  rw [if_neg (not_lt.mpr hn)]
  refine bind_eq_ok_iff.mpr ⟨mv, hmv, ?_⟩
  simp only [linesOf]
  split_ifs <;> rfl

theorem ascending_mergeSort (rows : List (Nat × Polynomial Float)) :
    Ascending (rows.mergeSort fun s t => Terms.before s.1 t.1) :=
  List.pairwise_mergeSort (fun s t u => @Terms.before_trans s.1 t.1 u.1)
    (fun s t => Terms.before_total s.1 t.1) rows

/-- **A symbolic product is the table of the product.** It has a term for every blade at which two
    allowed blades meet, whose polynomial has, for every two that meet there, the monomial of their
    atoms with the sign of their product, and nothing else. Other blades have other monomials, so
    none merge or cancel. The command prints these terms by grade and blade, for every
    configuration with this signature, if its dimension is not too large, and every name of this
    kind of product. So the strategy does not show in what is printed. -/
theorem symbolic_exact (sig : Signature) (k : Product) (gradeA? gradeB? : Option Nat)
    (hA : ∀ g ∈ gradeA?, g ≤ sig.dimension) (hB : ∀ g ∈ gradeB?, g ≤ sig.dimension) :
    ∃ mv : Multivector (Polynomial Float),
      (∀ s, genericProduct ⟨sig, Scalars.symbolic, s⟩ k gradeA? gradeB? = .ok mv) ∧
      (mv.terms.map Prod.fst).Nodup ∧
      (∀ r, (∃ p, (r, p) ∈ mv.terms) ↔ ∃ a b, Meets sig k gradeA? gradeB? r a b) ∧
      (∀ r p, (r, p) ∈ mv.terms → Tabulates sig k gradeA? gradeB? r p) ∧
      (∀ a b a' b', Polynomial.atomsOf a b = Polynomial.atomsOf a' b' → a = a' ∧ b = b') ∧
      (∃ rows, rows.Perm mv.terms ∧ Ascending rows ∧
        ∀ kind config, Product.ofText kind = .ok k → config.signature = .ok sig →
          sig.dimension ≤ maxSymbolicDimension →
            ∀ json, symbolic json kind gradeA? gradeB? config
              = .ok (textOf (linesOf json rows))) ∧
      ∀ json kind config s, symbolic json kind gradeA? gradeB? { config with strategy := s }
        = symbolic json kind gradeA? gradeB? config := by
  obtain ⟨a, ha⟩ := (exists_generic_iff (κ := Float) "a").mpr hA
  obtain ⟨b, hb⟩ := (exists_generic_iff (κ := Float) "b").mpr hB
  obtain ⟨t, ht, hproduct⟩ := exists_product_generic (k := k) countsUnits_defaultTolerance ha hb
  have hterms : ∀ r p, (r, p) ∈ (Terms.compact Scalars.symbolic t).terms ↔ t[r]? = some p :=
    mem_terms_generic ha hb ht
  have hmv : ∀ s, genericProduct ⟨sig, Scalars.symbolic, s⟩ k gradeA? gradeB?
      = .ok (Terms.compact Scalars.symbolic t) := fun s =>
    (genericProduct_eq ⟨sig, Scalars.symbolic, s⟩ k gradeA? gradeB? ha hb).trans
      (congrArg (Except.mapError Failure.refused) (hproduct s))
  refine ⟨Terms.compact Scalars.symbolic t, hmv, ?_, fun r => ?_, fun r p hp => ?_,
    fun a b a' b' => Polynomial.atomsOf_inj.mp,
    ⟨_, List.mergeSort_perm _ _, ascending_mergeSort _, fun kind config hkind hsig hn json =>
      symbolic_eq hkind hsig hn (hmv config.strategy) json⟩,
    fun json kind config s => symbolic_strategy json kind gradeA? gradeB? config s⟩
  · exact Multivector.nodup_terms sig.dimension_le
      (Terms.inRange_compact sig.dimension_le (within_generic ha hb ht))
  · rw [← mem_generic_iff ha hb ht, Terms.mem_iff_exists_getElem?]
    simp only [hterms]
  · exact tabulates_generic ha hb ht ((hterms r p).mp hp)

/-- The geometric product of two vectors, of which the blade of `e₀` and `e₁` has two monomials with
    opposite signs. Two configurations of the algebra print it, one as lines and one as JSON. -/
theorem symbolic_exact_vectors :
    let config : Config := { squares? := some [1, -1, 0], strategy := .pairwise }
    ∃ (mv : Multivector (Polynomial Float)) (p : Polynomial Float)
      (rows : List (Nat × Polynomial Float)),
      (∀ s, genericProduct ⟨.mixed, Scalars.symbolic, s⟩ .geometric (some 1) (some 1) = .ok mv) ∧
      p.terms[["a1", "b2"]]? = some 1 ∧ p.terms[["a2", "b1"]]? = some (-1) ∧
      (3, p) ∈ rows ∧ rows.Perm mv.terms ∧ Ascending rows ∧
      symbolic false "GP" (some 1) (some 1) config
        = .ok (textOf (rows.map fun t => Blade.name t.1 ++ ": " ++ t.2.toText)) ∧
      symbolic true "gp" (some 1) (some 1) { config with strategy := .tree }
        = .ok (textOf [Json.pretty (.array (rows.map symbolicRow))]) := by
  intro config
  obtain ⟨mv, hmv, -, hexists, hterms, -, ⟨rows, hperm, hascending, hprinted⟩, hstrategy⟩ :=
    symbolic_exact .mixed .geometric (some 1) (some 1) (by decide) (by decide)
  have hfirst : Allowed Signature.mixed.dimension (some 1) 1 := ⟨by decide, by decide +kernel⟩
  have hsecond : Allowed Signature.mixed.dimension (some 1) 2 := ⟨by decide, by decide +kernel⟩
  have hmeets : Meets .mixed .geometric (some 1) (some 1) 3 1 2 :=
    ⟨hfirst, hsecond, rfl, by decide +kernel⟩
  have hmeets' : Meets .mixed .geometric (some 1) (some 1) 3 2 1 :=
    ⟨hsecond, hfirst, rfl, by decide +kernel⟩
  obtain ⟨p, hp⟩ := (hexists 3).mpr ⟨1, 2, hmeets⟩
  have hrow : (3, p) ∈ rows := hperm.mem_iff.mpr hp
  have hsignature : config.signature = .ok .mixed := by rfl
  have hlines := hprinted "GP" config (by decide +kernel) hsignature (by decide) false
  have hjson := hprinted "gp" config (by decide +kernel) hsignature (by decide) true
  have hempty : rows.isEmpty = false := by
    rw [List.isEmpty_eq_false_iff]
    exact List.ne_nil_of_mem hrow
  refine ⟨mv, p, rows, hmv, ?_, ?_, hrow, hperm, hascending, ?_, ?_⟩
  · exact (hterms 3 p hp _ _).mpr ⟨1, 2, hmeets, by decide +kernel, by decide +kernel⟩
  · exact (hterms 3 p hp _ _).mpr ⟨2, 1, hmeets', by decide +kernel, by decide +kernel⟩
  · rw [hlines, linesOf, if_neg Bool.false_ne_true, hempty, if_neg Bool.false_ne_true]
  · rw [hstrategy, hjson, linesOf, if_pos rfl]

end CommandLine

end GeometricAlgebra
