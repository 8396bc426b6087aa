import GeometricAlgebra.Multivector.Text
import GeometricAlgebra.Proofs.Blade.Grammar
import GeometricAlgebra.Proofs.Multivector.Sums
import GeometricAlgebra.Proofs.Number

set_option autoImplicit false

/-! # What the text of a multivector tells

The text of a multivector is a sum of its terms that are not zero, in an order that leaves no choice
(`textTerms_eq_iff`). Where coefficients are plain decimals, a term has no sign in it but the one in
front, so the signs of a sum are where its terms end (`sum_inj`). A term has no letter but the ones
of its blade, so the first one is where its coefficient ends (`termText_inj`). So the text tells the
terms (`toText_eq_iff_of_writes`). -/

namespace GeometricAlgebra

variable {α : Type}

/-! ## The order of a text -/

namespace Terms

theorem before_trans {s t u : Nat} (hst : before s t = true) (htu : before t u = true) :
    before s u = true := by
  simp only [before, Bool.or_eq_true, Bool.and_eq_true, decide_eq_true_eq, beq_iff_eq] at hst htu ⊢
  omega

theorem before_total (s t : Nat) : (before s t || before t s) = true := by
  simp only [before, Bool.or_eq_true, Bool.and_eq_true, decide_eq_true_eq, beq_iff_eq]
  omega

theorem eq_of_before {s t : Nat} (hst : before s t = true) (hts : before t s = true) : s = t := by
  simp only [before, Bool.or_eq_true, Bool.and_eq_true, decide_eq_true_eq, beq_iff_eq] at hst hts
  omega

end Terms

namespace Multivector

variable {S : Scalars α} {n : Nat} {a a' : Multivector α}

theorem mem_textTerms {t : Nat × α} :
    t ∈ a.textTerms S ↔ t ∈ a.terms ∧ S.isZero t.2 = false := by
  rw [textTerms, (List.mergeSort_perm _ _).mem_iff, List.mem_filter, Bool.not_eq_true']

theorem nodup_textTerms (hn : n ≤ maxDimension) (h : a.InRange n) :
    ((a.textTerms S).map Prod.fst).Nodup := by
  rw [textTerms, ((List.mergeSort_perm _ _).map Prod.fst).nodup_iff]
  exact (nodup_terms hn h).sublist (List.filter_sublist.map Prod.fst)

theorem pairwise_textTerms (S : Scalars α) (a : Multivector α) :
    (a.textTerms S).Pairwise fun s t => Terms.before s.1 t.1 = true :=
  List.pairwise_mergeSort (fun (s t u : Nat × α) => @Terms.before_trans s.1 t.1 u.1)
    (fun s t => Terms.before_total s.1 t.1) _

/-- The terms of a text are the coefficients without zeros. -/
theorem mem_textTerms_iff (hn : n ≤ maxDimension) (h : a.InRange n) {b : Nat} {v : α} :
    (b, v) ∈ a.textTerms S ↔ (Terms.dropZeros S a.toTerms)[b]? = some v := by
  rw [mem_textTerms, Terms.getElem?_dropZeros, getElem?_toTerms_iff hn h]

/-- **The order of a text leaves no choice**, as every blade comes once. -/
theorem textTerms_eq_iff (hn : n ≤ maxDimension) (h : a.InRange n) (h' : a'.InRange n) :
    a.textTerms S = a'.textTerms S ↔
      Terms.dropZeros S a.toTerms = Terms.dropZeros S a'.toTerms := by
  constructor
  · intro heq
    refine Std.ExtTreeMap.ext_getElem? fun {b} => Option.ext fun v => ?_
    rw [← mem_textTerms_iff hn h, ← mem_textTerms_iff hn h', heq]
  · intro heq
    have hmem : ∀ t, t ∈ a.textTerms S ↔ t ∈ a'.textTerms S := fun t => by
      rw [mem_textTerms_iff hn h, mem_textTerms_iff hn h', heq]
    have hnodup' := nodup_textTerms (S := S) hn h'
    refine List.Perm.eq_of_pairwise (fun s t hs ht hst hts => ?_) (pairwise_textTerms S a)
      (pairwise_textTerms S a') ((List.perm_ext_iff_of_nodup
        (nodup_textTerms hn h).of_map hnodup'.of_map).mpr hmem)
    exact List.inj_on_of_nodup_map hnodup' ((hmem s).mp hs) ht (Terms.eq_of_before hst hts)

end Multivector

/-! ## Sums -/

namespace Terms

open Decimal

/-- Whether a term is subtracted, and its text without the minus. -/
def splitMinus : List Char → Bool × List Char
  | '-' :: cs => (true, cs)
  | cs => (false, cs)

theorem minus_append_splitMinus (cs : List Char) :
    minus (splitMinus cs).1 ++ (splitMinus cs).2 = cs := by
  unfold splitMinus
  split <;> rfl

theorem splitMinus_injective : Function.Injective splitMinus := fun cs ds h => by
  rw [← minus_append_splitMinus cs, h, minus_append_splitMinus]

def isSign (c : Char) : Bool := c == '+' || c == '-'

/-- The text has no sign in it but a minus in front. -/
structure IsSummand (cs : List Char) : Prop where
  ne_nil : (splitMinus cs).2 ≠ []
  isSign : ∀ c ∈ (splitMinus cs).2, isSign c = false

/-- A term after the first one, as it is written. -/
def summand (cs : List Char) : List Char :=
  ' ' :: (if (splitMinus cs).1 then '-' else '+') :: ' ' :: (splitMinus cs).2

theorem toList_joined (term : String) : (joined term).toList = summand term.toList := by
  rw [joined]
  split
  · next rest h => simp [h, summand, splitMinus]
  · next h =>
      have hsplit : splitMinus term.toList = (false, term.toList) := by
        unfold splitMinus
        split
        · next rest heq => exact absurd heq (h rest)
        · rfl
      simp [summand, hsplit]

variable {cs cs' : List Char} {ts ts' : List (List Char)}

/-- The first sign after a text without signs is that of the next term. -/
theorem append_summand_inj {t t' rest rest' : List Char} (hcs : ∀ c ∈ cs, isSign c = false)
    (hcs' : ∀ c ∈ cs', isSign c = false)
    (h : cs ++ (summand t ++ rest) = cs' ++ (summand t' ++ rest')) :
    cs = cs' ∧ (splitMinus t).1 = (splitMinus t').1 ∧
      (splitMinus t).2 ++ rest = (splitMinus t').2 ++ rest' := by
  have hspace : ∀ {cs : List Char}, (∀ c ∈ cs, isSign c = false) →
      ∀ c ∈ cs ++ [' '], (!isSign c) = true := by
    intro cs hcs c hc
    rw [Bool.not_eq_true']
    exact (List.mem_append.mp hc).elim (hcs c) fun hc => List.mem_singleton.mp hc ▸ rfl
  have hsign : ∀ b : Bool, (!isSign (if b then '-' else '+')) = false := by decide
  have hregroup : ∀ cs t rest : List Char, cs ++ (summand t ++ rest)
      = (cs ++ [' ']) ++ (if (splitMinus t).1 then '-' else '+')
        :: ' ' :: ((splitMinus t).2 ++ rest) := by
    simp [summand]
  rw [hregroup, hregroup] at h
  obtain ⟨hfront, hminus, hrest⟩ :=
    append_cons_inj (hspace hcs) (hspace hcs') (hsign _) (hsign _) h
  refine ⟨List.append_cancel_right hfront, ?_, (List.cons.inj hrest).2⟩
  generalize (splitMinus t).1 = b, (splitMinus t').1 = b' at hminus
  revert b b'
  decide

/-- A text without signs has no further terms. -/
theorem ne_append_summand {t rest : List Char} (hcs : ∀ c ∈ cs, isSign c = false) :
    cs ≠ cs' ++ (summand t ++ rest) := by
  rintro rfl
  have hsign := hcs (if (splitMinus t).1 then '-' else '+') (by simp [summand])
  split at hsign <;> cases hsign

/-- Each next sign is where the next term starts. -/
theorem append_flatMap_summand_inj (hcs : ∀ c ∈ cs, isSign c = false)
    (hcs' : ∀ c ∈ cs', isSign c = false) (hts : ∀ t ∈ ts, IsSummand t)
    (hts' : ∀ t ∈ ts', IsSummand t) (h : cs ++ ts.flatMap summand = cs' ++ ts'.flatMap summand) :
    cs = cs' ∧ ts = ts' := by
  induction ts generalizing cs cs' ts' with
  | nil =>
      cases ts' with
      | nil => exact ⟨by simpa using h, rfl⟩
      | cons t' ts' =>
          rw [List.flatMap_nil, List.append_nil, List.flatMap_cons] at h
          exact absurd h (ne_append_summand hcs)
  | cons t ts ih =>
      rw [List.flatMap_cons] at h
      cases ts' with
      | nil =>
          rw [List.flatMap_nil, List.append_nil] at h
          exact absurd h.symm (ne_append_summand hcs')
      | cons t' ts' =>
          rw [List.flatMap_cons] at h
          rw [List.forall_mem_cons] at hts hts'
          obtain ⟨rfl, hminus, h⟩ := append_summand_inj hcs hcs' h
          obtain ⟨hterm, rfl⟩ := ih hts.1.isSign hts'.1.isSign hts.2 hts'.2 h
          exact ⟨rfl, by rw [splitMinus_injective (Prod.ext hminus hterm)]⟩

theorem minus_append_inj {b b' : Bool} {rest rest' : List Char} (hne : cs ≠ [])
    (hcs : ∀ c ∈ cs, isSign c = false) (hne' : cs' ≠ []) (hcs' : ∀ c ∈ cs', isSign c = false)
    (h : minus b ++ (cs ++ rest) = minus b' ++ (cs' ++ rest')) :
    b = b' ∧ cs ++ rest = cs' ++ rest' := by
  have hminus : ∀ {cs rest rest' : List Char}, cs ≠ [] → (∀ c ∈ cs, isSign c = false) →
      cs ++ rest ≠ '-' :: rest' := by
    rintro (_ | ⟨c, cs⟩) rest rest' hne hcs h
    · exact hne rfl
    · cases h
      cases hcs '-' List.mem_cons_self
  cases b <;> cases b'
  · exact ⟨rfl, h⟩
  · exact absurd (show cs ++ rest = '-' :: (cs' ++ rest') from h) (hminus hne hcs)
  · exact absurd (show cs' ++ rest' = '-' :: (cs ++ rest) from h.symm) (hminus hne' hcs')
  · exact ⟨rfl, (List.cons.inj h).2⟩

/-- **A sum is read in one way.** -/
theorem sum_inj {t t' : List Char} (hts : ∀ u ∈ t :: ts, IsSummand u)
    (hts' : ∀ u ∈ t' :: ts', IsSummand u)
    (h : t ++ ts.flatMap summand = t' ++ ts'.flatMap summand) :
    t :: ts = t' :: ts' := by
  rw [List.forall_mem_cons] at hts hts'
  rw [← minus_append_splitMinus t, ← minus_append_splitMinus t', List.append_assoc,
    List.append_assoc] at h
  obtain ⟨hminus, h⟩ :=
    minus_append_inj hts.1.ne_nil hts.1.isSign hts'.1.ne_nil hts'.1.isSign h
  obtain ⟨hterm, rfl⟩ := append_flatMap_summand_inj hts.1.isSign hts'.1.isSign hts.2 hts'.2 h
  rw [splitMinus_injective (Prod.ext hminus hterm)]

/-- The terms as a sum; without terms, a zero. -/
def sumText : List (List Char) → List Char
  | [] => ['0']
  | t :: ts => t ++ ts.flatMap summand

/-- A sum is read in one way, where no term is a zero alone. -/
theorem sumText_inj (hts : ∀ t ∈ ts, IsSummand t ∧ t ≠ ['0'])
    (hts' : ∀ t ∈ ts', IsSummand t ∧ t ≠ ['0']) (h : sumText ts = sumText ts') : ts = ts' := by
  have hzero : ∀ t ∈ [['0']], IsSummand t :=
    List.forall_mem_singleton.mpr ⟨by decide, List.forall_mem_singleton.mpr (by decide)⟩
  -- a zero alone would be the sum of one term, which is none of the terms
  have hnone : ∀ {t : List Char} {ts : List (List Char)},
      (∀ u ∈ t :: ts, IsSummand u ∧ u ≠ ['0']) → sumText [] ≠ sumText (t :: ts) := by
    intro t ts hts h
    have heq : ['0'] :: [] = t :: ts := sum_inj hzero (fun u hu => (hts u hu).1) h
    exact (hts t List.mem_cons_self).2 (List.cons.inj heq).1.symm
  cases ts with
  | nil =>
      cases ts' with
      | nil => rfl
      | cons t' ts' => exact absurd h (hnone hts')
  | cons t ts =>
      cases ts' with
      | nil => exact absurd h.symm (hnone hts)
      | cons t' ts' => exact sum_inj (fun u hu => (hts u hu).1) (fun u hu => (hts' u hu).1) h

/-! ## Terms -/

/-- What stands in front of the name of a blade: the coefficient, unless it is a unit. -/
def front (coefficient : List Char) : List Char :=
  if coefficient = ['1'] then [] else if coefficient = ['-', '1'] then ['-']
  else coefficient ++ [' ']

theorem front_cases (cs : List Char) :
    cs = ['1'] ∧ front cs = [] ∨ cs = ['-', '1'] ∧ front cs = ['-'] ∨ front cs = cs ++ [' '] := by
  unfold front
  split_ifs with hone hminusOne
  · exact Or.inl ⟨hone, rfl⟩
  · exact Or.inr (Or.inl ⟨hminusOne, rfl⟩)
  · exact Or.inr (Or.inr rfl)

/-- Only what is no unit leaves a space in front of the name. -/
theorem front_injective : Function.Injective front := by
  have hspace : ∀ cs ds : List Char, ' ' ∉ ds → cs ++ [' '] ≠ ds := by
    rintro cs ds hds rfl
    exact hds (List.mem_append_right cs (List.mem_singleton.mpr rfl))
  intro cs ds h
  rcases front_cases ds with ⟨rfl, hd⟩ | ⟨rfl, hd⟩ | hd <;> rw [hd] at h
  · rcases front_cases cs with ⟨rfl, -⟩ | ⟨-, hc⟩ | hc
    · rfl
    · cases hc.symm.trans h
    · exact absurd (hc.symm.trans h) (hspace cs [] (by decide))
  · rcases front_cases cs with ⟨-, hc⟩ | ⟨rfl, -⟩ | hc
    · cases hc.symm.trans h
    · rfl
    · exact absurd (hc.symm.trans h) (hspace cs ['-'] (by decide))
  · rcases front_cases cs with ⟨-, hc⟩ | ⟨-, hc⟩ | hc
    · exact absurd (h.symm.trans hc) (hspace ds [] (by decide))
    · exact absurd (h.symm.trans hc) (hspace ds ['-'] (by decide))
    · exact List.append_cancel_right (hc.symm.trans h)

theorem toList_termText {b : Nat} {w : String} (hw : IsPlain w.toList) :
    (termText b w).toList =
      if b = 0 then w.toList else front w.toList ++ (Blade.name b).toList := by
  have hspace : ' ' ∉ w.toList := hw.not_mem (by decide) (by decide) (by decide)
  have hcompound : isCompound w.toList = false := by
    rw [isCompound, Bool.or_eq_false_iff]
    exact ⟨Text.occursIn_eq_false hspace _, Text.occursIn_eq_false hspace _⟩
  have hone : w.toList = ['1'] ↔ w = "1" := by
    rw [← String.toList_inj]
    rfl
  have hminusOne : w.toList = ['-', '1'] ↔ w = "-1" := by
    rw [← String.toList_inj]
    rfl
  simp only [termText, front, hcompound, hone, hminusOne, Bool.false_eq_true, if_false]
  split_ifs <;> simp

variable {b b' : Nat} {w w' : String}

theorem splitMinus_minus_append (negative : Bool) (hcs : ∀ c ∈ cs, isSign c = false) :
    splitMinus (minus negative ++ cs) = (negative, cs) := by
  cases negative
  · show splitMinus cs = (false, cs)
    unfold splitMinus
    split
    · cases hcs '-' List.mem_cons_self
    · rfl
  · rfl

theorem isSummand_minus_append (negative : Bool) (hne : cs ≠ [])
    (hcs : ∀ c ∈ cs, isSign c = false) :
    IsSummand (minus negative ++ cs) := by
  have hsplit := splitMinus_minus_append negative hcs
  exact ⟨by rwa [hsplit], by rwa [hsplit]⟩

theorem isSign_of_inName {c : Char} (h : Blade.InName c) : isSign c = false := by
  rw [isSign, Bool.or_eq_false_iff, beq_eq_false_iff_ne, beq_eq_false_iff_ne]
  exact ⟨fun hc => absurd (hc ▸ h) (by decide), fun hc => absurd (hc ▸ h) (by decide)⟩

/-- The name of a blade with vectors starts with a letter. -/
theorem exists_name_eq (hb : b ≠ 0) : ∃ cs, (Blade.name b).toList = 'e' :: cs :=
  (Blade.factors_name hb).exists_cons

theorem isSummand_termText (hw : IsPlain w.toList) : IsSummand (termText b w).toList := by
  obtain ⟨negative, cs, hcs, hne, hchars⟩ := hw.exists_eq_minus
  have hsigns : ∀ c ∈ cs, isSign c = false := by
    intro c hc
    rcases hchars c hc with hc | rfl
    · exact isSign_of_inName (Or.inr (Or.inr hc))
    · decide
  rw [toList_termText hw]
  split
  · rw [hcs]
    exact isSummand_minus_append negative hne hsigns
  · next hb =>
      have hname : ∀ c ∈ (Blade.name b).toList, isSign c = false := fun c hc =>
        isSign_of_inName (Blade.inName_of_mem_name hc)
      obtain ⟨ds, hds⟩ := exists_name_eq hb
      have hnameNe : (Blade.name b).toList ≠ [] := hds ▸ List.cons_ne_nil 'e' ds
      rcases front_cases w.toList with ⟨-, hfront⟩ | ⟨-, hfront⟩ | hfront <;> rw [hfront]
      · exact isSummand_minus_append false hnameNe hname
      · exact isSummand_minus_append true hnameNe hname
      · rw [hcs, List.append_assoc, List.append_assoc]
        have hlong := List.append_ne_nil_of_left_ne_nil hne ([' '] ++ (Blade.name b).toList)
        refine isSummand_minus_append negative hlong fun c hc => ?_
        rcases List.mem_append.mp hc with hc | hc
        · exact hsigns c hc
        · exact (List.mem_cons.mp hc).elim (fun h => h ▸ rfl) (hname c)

theorem not_mem_front (hw : IsPlain w.toList) : 'e' ∉ front w.toList := by
  have hmem : 'e' ∉ w.toList := hw.not_mem (by decide) (by decide) (by decide)
  rcases front_cases w.toList with ⟨-, h⟩ | ⟨-, h⟩ | h <;> rw [h]
  · decide
  · decide
  · simpa using hmem

/-- **A term is read in one way.** -/
theorem termText_inj (hb : b < 2 ^ maxDimension) (hb' : b' < 2 ^ maxDimension)
    (hw : IsPlain w.toList) (hw' : IsPlain w'.toList) (h : termText b w = termText b' w') :
    b = b' ∧ w = w' := by
  -- a scalar has no letter, any other term has one
  have hletter : ∀ {b : Nat} {w : String}, IsPlain w.toList →
      ('e' ∈ (termText b w).toList ↔ b ≠ 0) := by
    intro b w hw
    rw [toList_termText hw]
    split
    · next hb =>
        exact iff_of_false (hw.not_mem (by decide) (by decide) (by decide)) (not_not.mpr hb)
    · next hb =>
        obtain ⟨ds, hds⟩ := exists_name_eq hb
        exact iff_of_true (by simp [hds]) hb
  have hzero : b ≠ 0 ↔ b' ≠ 0 := by rw [← hletter hw, h, hletter hw']
  rw [← String.toList_inj, toList_termText hw, toList_termText hw'] at h
  by_cases hb0 : b = 0
  · have hb0' : b' = 0 := by tauto
    rw [if_pos hb0, if_pos hb0', String.toList_inj] at h
    exact ⟨hb0.trans hb0'.symm, h⟩
  · have hb0' : b' ≠ 0 := hzero.mp hb0
    rw [if_neg hb0, if_neg hb0'] at h
    obtain ⟨ds, hds⟩ := exists_name_eq hb0
    obtain ⟨ds', hds'⟩ := exists_name_eq hb0'
    have hfree : ∀ {w : String}, IsPlain w.toList → ∀ c ∈ front w.toList, (c != 'e') = true :=
      fun hw c hc => bne_iff_ne.mpr fun heq => not_mem_front hw (heq ▸ hc)
    rw [hds, hds'] at h
    obtain ⟨hfront, -, hnames⟩ := append_cons_inj (hfree hw) (hfree hw') rfl rfl h
    refine ⟨Blade.name_inj hb hb' (String.toList_inj.mp ?_), ?_⟩
    · rw [hds, hds', hnames]
    · exact String.toList_inj.mp (front_injective hfront)

/-- No term is a zero alone, unless its coefficient is written as one. -/
theorem termText_ne_zero (hb : b < 2 ^ maxDimension) (hw : IsPlain w.toList) (hne : w ≠ "0") :
    termText b w ≠ "0" := by
  have hzero : IsPlain "0".toList := (isWhole_toDigits 0).isPlain false
  intro h
  have hscalar : termText b w = termText 0 "0" := h
  exact hne (termText_inj hb (by decide) hw hzero hscalar).2

end Terms

/-! ## Texts -/

/-- Scalars with a property are written as plain decimals, none as a zero and no two alike. -/
structure WritesPlain (text : α → String) (P : α → Prop) : Prop where
  injective : ∀ x y, P x → P y → text x = text y → x = y
  isPlain : ∀ x, P x → Decimal.IsPlain (text x).toList
  ne_zero : ∀ x, P x → text x ≠ "0"

namespace Multivector

variable {S : Scalars α} {n : Nat} {a a' : Multivector α}

theorem toList_foldl_joined (rest : List String) (first : String) :
    (rest.foldl (fun out term => out ++ Terms.joined term) first).toList
      = first.toList ++ (rest.map String.toList).flatMap Terms.summand := by
  induction rest generalizing first with
  | nil => simp
  | cons term rest ih =>
      rw [List.foldl_cons, ih, String.toList_append, Terms.toList_joined, List.map_cons,
        List.flatMap_cons, List.append_assoc]

theorem toList_toText (S : Scalars α) (a : Multivector α) :
    (a.toText S).toList
      = Terms.sumText ((a.textTerms S).map fun t => (Terms.termText t.1 (S.text t.2)).toList) := by
  have hmap : ((a.textTerms S).map fun t => (Terms.termText t.1 (S.text t.2)).toList)
      = ((a.textTerms S).map fun t => Terms.termText t.1 (S.text t.2)).map String.toList := by
    rw [List.map_map]
    rfl
  rw [toText, hmap]
  cases (a.textTerms S).map fun t => Terms.termText t.1 (S.text t.2) with
  | nil => rfl
  | cons first rest => exact toList_foldl_joined rest first

/-- Lists with the same image are the same, where the map tells their members apart. -/
theorem eq_of_map_eq {β γ : Type} {f : β → γ} {l l' : List β}
    (hf : ∀ x ∈ l, ∀ y ∈ l', f x = f y → x = y) (h : l.map f = l'.map f) : l = l' := by
  induction l generalizing l' with
  | nil => exact (List.map_eq_nil_iff.mp h.symm).symm
  | cons x l ih =>
      cases l' with
      | nil => cases h
      | cons y l' =>
          obtain ⟨hxy, h⟩ := List.cons.inj h
          rw [hf x List.mem_cons_self y List.mem_cons_self hxy, ih (fun x hx y hy =>
            hf x (List.mem_cons_of_mem _ hx) y (List.mem_cons_of_mem _ hy)) h]

/-- **The text tells the terms that are not zero**, where their coefficients are plain decimals. -/
theorem toText_eq_iff_of_writes {P : α → Prop} (hP : WritesPlain S.text P) (hn : n ≤ maxDimension)
    (h : a.InRange n) (h' : a'.InRange n) (ha : ∀ t ∈ a.textTerms S, P t.2)
    (ha' : ∀ t ∈ a'.textTerms S, P t.2) :
    a.toText S = a'.toText S ↔
      Terms.dropZeros S a.toTerms = Terms.dropZeros S a'.toTerms := by
  have hlt : ∀ {mv : Multivector α}, mv.InRange n → ∀ t ∈ mv.textTerms S, t.1 < 2 ^ maxDimension :=
    fun hmv t ht => (lt_of_mem_terms hn hmv (mem_textTerms.mp ht).1).trans_le
      (Nat.pow_le_pow_right (by decide) hn)
  have hterm : ∀ {mv : Multivector α}, mv.InRange n → (∀ t ∈ mv.textTerms S, P t.2) →
      ∀ u ∈ (mv.textTerms S).map fun t => (Terms.termText t.1 (S.text t.2)).toList,
        Terms.IsSummand u ∧ u ≠ ['0'] := by
    intro mv hrange hmv
    refine List.forall_mem_map.mpr fun t ht => ?_
    have hplain := hP.isPlain _ (hmv t ht)
    have hne := Terms.termText_ne_zero (hlt hrange t ht) hplain (hP.ne_zero _ (hmv t ht))
    exact ⟨Terms.isSummand_termText hplain, fun hzero => hne (String.toList_inj.mp hzero)⟩
  rw [← textTerms_eq_iff hn h h']
  constructor
  · intro htext
    rw [← String.toList_inj, toList_toText, toList_toText] at htext
    refine eq_of_map_eq (fun s hs t ht hst => ?_)
      (Terms.sumText_inj (hterm h ha) (hterm h' ha') htext)
    obtain ⟨hblade, hvalue⟩ := Terms.termText_inj (hlt h s hs) (hlt h' t ht)
      (hP.isPlain _ (ha s hs)) (hP.isPlain _ (ha' t ht)) (String.toList_inj.mp hst)
    exact Prod.ext hblade (hP.injective _ _ (ha s hs) (ha' t ht) hvalue)
  · intro heq
    rw [toText, toText, heq]

end Multivector

/-! ## Integers and floating-point numbers -/

theorem toList_toString_int (x : Int) :
    (toString x).toList = Decimal.minus (decide (x < 0)) ++ Nat.toDigits 10 x.natAbs := by
  cases x with
  | ofNat n =>
      have hnonneg : ¬ Int.ofNat n < 0 := not_lt.mpr (Int.natCast_nonneg n)
      rw [decide_eq_false hnonneg]
      exact Nat.toList_repr
  | negSucc n =>
      rw [decide_eq_true (Int.negSucc_lt_zero n)]
      show ("-" ++ Nat.repr (n + 1)).toList = _
      rw [String.toList_append, Nat.toList_repr]
      rfl

theorem toString_int_injective : Function.Injective (toString : Int → String) := by
  intro x y h
  have hdigits : ∀ n : Nat, ∀ c ∈ Nat.toDigits 10 n, Terms.isSign c = false := fun n c hc =>
    Terms.isSign_of_inName (Or.inr (Or.inr (Decimal.isDigit_of_mem_toDigits hc)))
  have hlist := congrArg String.toList h
  rw [toList_toString_int, toList_toString_int, ← List.append_nil (Nat.toDigits 10 x.natAbs),
    ← List.append_nil (Nat.toDigits 10 y.natAbs)] at hlist
  obtain ⟨hsign, heq⟩ := Terms.minus_append_inj Nat.toDigits_ne_nil (hdigits _)
    Nat.toDigits_ne_nil (hdigits _) hlist
  have hvalue := congrArg Decimal.valueOf (List.append_cancel_right heq)
  rw [Decimal.valueOf_toDigits, Decimal.valueOf_toDigits] at hvalue
  rw [decide_eq_decide] at hsign
  omega

theorem writesPlain_integers :
    WritesPlain Scalars.integers.text fun x => Scalars.integers.isZero x = false where
  injective _ _ _ _ h := toString_int_injective h
  isPlain x _ := by
    show Decimal.IsPlain (toString x).toList
    rw [toList_toString_int]
    exact (Decimal.isWhole_toDigits _).isPlain _
  ne_zero x hx h := by
    rw [toString_int_injective (show toString x = toString 0 from h)] at hx
    cases hx

/-- Finite numbers but zero are written as plain decimals, no two alike. -/
theorem Number.writesPlain_plain :
    WritesPlain Number.plain fun x => x.isFinite = true ∧ (x == 0) = false where
  injective x y hx hy h := by
    have hread := (Number.plain_spec hx.1 hx.2).2
    rw [h, (Number.plain_spec hy.1 hy.2).2] at hread
    exact (Option.some.inj hread).symm
  isPlain x hx := (Number.plain_spec hx.1 hx.2).1
  ne_zero x hx h := by
    have hread := (Number.plain_spec hx.1 hx.2).2
    have hzero : Decimal.readFloat? "0" = some 0 := by decide +kernel
    rw [h, hzero] at hread
    have hne := hx.2
    rw [← Option.some.inj hread] at hne
    revert hne
    decide +kernel

namespace Multivector

/-- **The text of a multivector loses nothing but zeros.** Two multivectors have the same text iff
    they have the same coefficients that are not zero, by blade, where these are written as plain
    decimals, no two of them alike. -/
theorem toText_eq_iff (S : Scalars α) (hS : WritesPlain S.text fun x => S.isZero x = false)
    (a a' : Multivector α) (ha : a.validate maxDimension = .ok ())
    (ha' : a'.validate maxDimension = .ok ()) :
    a.toText S = a'.toText S ↔
      Terms.dropZeros S a.toTerms = Terms.dropZeros S a'.toTerms := by
  rw [validate_eq_ok_iff] at ha ha'
  exact toText_eq_iff_of_writes hS le_rfl ha.2 ha'.2 (fun _ ht => (mem_textTerms.mp ht).2)
    fun _ ht => (mem_textTerms.mp ht).2

/-- Two forms of one multivector, of which one has a zero more, and a multivector with another blade
    for the same coefficient. -/
theorem toText_eq_iff_integers :
    let S := Scalars.integers
    let a : Multivector Int := .ofBlades [(0, -7), (1, 1), (5, -1)]
    let a' : Multivector Int := .ofGrades [(0, 0, -7), (1, 0, 1), (1, 1, 0), (2, 1, -1)]
    let c : Multivector Int := .ofBlades [(0, -7), (1, 1), (6, -1)]
    a.terms ≠ a'.terms ∧ a.toText S = a'.toText S ∧ a.toText S ≠ c.toText S ∧
      a.toText S = "-7 + e1 - e1^e3" := by
  intro S a a' c
  have hiff := toText_eq_iff S writesPlain_integers
  refine ⟨by decide +kernel, (hiff a a' (by cbv) (by cbv)).mpr (by cbv), fun h => ?_, by cbv⟩
  have hzeros := (hiff a c (by cbv) (by cbv)).mp h
  have hterm : (Terms.dropZeros S a.toTerms)[5]? = some (-1) := by cbv
  have hnone : (Terms.dropZeros S c.toTerms)[5]? = none := by cbv
  rw [hzeros, hnone] at hterm
  cases hterm

/-- Finite floating-point numbers are such coefficients, with any tolerance. -/
theorem toText_eq_iff_of_isFinite {ε : Float} (hε : 0 ≤ ε) (a a' : Multivector Float)
    (ha : a.validate maxDimension = .ok ()) (ha' : a'.validate maxDimension = .ok ())
    (hfinite : ∀ t ∈ a.terms, t.2.isFinite = true)
    (hfinite' : ∀ t ∈ a'.terms, t.2.isFinite = true) :
    a.toText (Coefficient.approximate ε) = a'.toText (Coefficient.approximate ε) ↔
      Terms.dropZeros (Coefficient.approximate ε) a.toTerms
        = Terms.dropZeros (Coefficient.approximate ε) a'.toTerms := by
  have hnonzero : ∀ {x : Float}, (Coefficient.approximate ε).isZero x = false →
      (x == 0) = false := by
    intro x hx
    by_contra hzero
    rw [Bool.not_eq_false, Binary.beq_zero_iff] at hzero
    have habs : x.abs = 0 := by
      rw [← Binary.ofBits_toBits x]
      rcases hzero with h | h <;> rw [h] <;> decide +kernel
    have hle : (Coefficient.approximate ε).isZero x = decide (x.abs ≤ ε) := rfl
    rw [hle, habs, decide_eq_false_iff_not] at hx
    exact hx hε
  have hplain : ∀ {mv : Multivector Float}, (∀ t ∈ mv.terms, t.2.isFinite = true) →
      ∀ t ∈ mv.textTerms (Coefficient.approximate ε), t.2.isFinite = true ∧ (t.2 == 0) = false :=
    fun hmv t ht => ⟨hmv t (mem_textTerms.mp ht).1, hnonzero (mem_textTerms.mp ht).2⟩
  rw [validate_eq_ok_iff] at ha ha'
  exact toText_eq_iff_of_writes Number.writesPlain_plain le_rfl ha.2 ha'.2 (hplain hfinite)
    (hplain hfinite')

end Multivector

end GeometricAlgebra
