import Mathlib.Data.List.SplitBy
import TokenCodec.Proofs.Regex.Derivations
import TokenCodec.Regex.Assembly

/-!
# Expressions put together

A sequence has the derivations of its parts one after the other.  What holds of
the bounds of all parts holds of what is put together from them: a shared
beginning is taken from the alternatives themselves.
-/

namespace TokenCodec.Regex.Pattern

/-! ## Derivations of a sequence -/

theorem bounded_of_mem_steps {a b : Pattern} (ha : a.bounded = true) (hmem : b ∈ a.steps) :
    b.bounded = true := by
  induction a with
  | empty => cases hmem
  | append c d ihc ihd =>
      obtain ⟨hc, hd⟩ := Bool.and_eq_true_iff.mp ha
      exact (List.mem_append.mp hmem).elim (ihc hc) (ihd hd)
  | one _ => exact List.mem_singleton.mp hmem ▸ ha
  | look _ => exact List.mem_singleton.mp hmem ▸ ha
  | either _ _ _ _ => exact List.mem_singleton.mp hmem ▸ ha
  | group _ _ _ => exact List.mem_singleton.mp hmem ▸ ha
  | repeated _ _ _ _ _ => exact List.mem_singleton.mp hmem ▸ ha

theorem bounded_of_mem_branches {a b : Pattern} (ha : a.bounded = true) (hmem : b ∈ a.branches) :
    b.bounded = true := by
  induction a with
  | either c d ihc ihd =>
      obtain ⟨hc, hd⟩ := Bool.and_eq_true_iff.mp ha
      exact (List.mem_append.mp hmem).elim (ihc hc) (ihd hd)
  | empty => exact List.mem_singleton.mp hmem ▸ ha
  | one _ => exact List.mem_singleton.mp hmem ▸ ha
  | look _ => exact List.mem_singleton.mp hmem ▸ ha
  | append _ _ _ _ => exact List.mem_singleton.mp hmem ▸ ha
  | group _ _ _ => exact List.mem_singleton.mp hmem ▸ ha
  | repeated _ _ _ _ _ => exact List.mem_singleton.mp hmem ▸ ha

theorem bounded_ofSteps {patterns : List Pattern}
    (hpatterns : ∀ a ∈ patterns, a.bounded = true) : (ofSteps patterns).bounded = true := by
  fun_induction ofSteps patterns with
  | case1 => rfl
  | case2 a => exact hpatterns a (List.mem_singleton_self a)
  | case3 a rest _ ih =>
      obtain ⟨ha, hrest⟩ := List.forall_mem_cons.mp hpatterns
      exact Bool.and_eq_true_iff.mpr ⟨ha, ih hrest⟩

theorem bounded_ofBranches {patterns : List Pattern}
    (hpatterns : ∀ a ∈ patterns, a.bounded = true) : (ofBranches patterns).bounded = true := by
  fun_induction ofBranches patterns with
  | case1 => rfl
  | case2 a => exact hpatterns a (List.mem_singleton_self a)
  | case3 a rest _ ih =>
      obtain ⟨ha, hrest⟩ := List.forall_mem_cons.mp hpatterns
      exact Bool.and_eq_true_iff.mpr ⟨ha, ih hrest⟩

theorem bounded_sequence {patterns : List Pattern}
    (hpatterns : ∀ a ∈ patterns, a.bounded = true) : (sequence patterns).bounded = true := by
  refine bounded_ofSteps fun b hmem => ?_
  obtain ⟨a, ha, hstep⟩ := List.mem_flatMap.mp hmem
  exact bounded_of_mem_steps (hpatterns a ha) hstep

theorem bounded_repetition {least : Nat} {most : Option Nat} (greedy : Bool) {a : Pattern}
    (hbounds : ∀ limit, most = some limit → least ≤ limit) (ha : a.bounded = true) :
    (repetition least most greedy a).bounded = true := by
  have hrepeated {least : Nat} {most : Option Nat}
      (hbounds : ∀ limit, most = some limit → least ≤ limit) :
      (repeated least most greedy a).bounded = true := by
    refine Bool.and_eq_true_iff.mpr ⟨ha, ?_⟩
    cases most with
    | none => rfl
    | some limit => exact decide_eq_true (hbounds limit rfl)
  have hsimple {least : Nat} {most : Option Nat}
      (hbounds : ∀ limit, most = some limit → least ≤ limit) :
      (if most = some 0 then empty
        else if least = 1 ∧ most = some 1 then a
        else repeated least most greedy a).bounded = true := by
    split
    case isTrue => rfl
    case isFalse =>
      split
      case isTrue => exact ha
      case isFalse => exact hrepeated hbounds
  rw [repetition]
  cases a.takesNothing with
  | true =>
      refine hsimple ?_
      rintro _ ⟨⟩
      cases most with
      | none => exact Nat.min_le_right least 1
      | some limit =>
          have hle := hbounds limit rfl
          change min least 1 ≤ min limit 1
          omega
  | false => exact hsimple hbounds

theorem bounded_union {patterns : List Pattern}
    (hpatterns : ∀ a ∈ patterns, a.bounded = true) : (union patterns).bounded = true := by
  have hbranches (b : Pattern) (hmem : b ∈ patterns.flatMap branches) : b.bounded = true := by
    obtain ⟨a, ha, hbranch⟩ := List.mem_flatMap.mp hmem
    exact bounded_of_mem_branches (hpatterns a ha) hbranch
  rw [union]
  split
  case h_1 a heq => exact hbranches a (heq ▸ List.mem_singleton_self a)
  case h_2 =>
    split
    case h_1 => rfl
    case h_2 => exact bounded_ofBranches hbranches

/-- What alternatives share at their beginning is the beginning of the first one. -/
theorem mem_of_mem_shared {front back : List (List Pattern)} {piece : List Pattern}
    (hmem : piece ∈ shared front back) : piece ∈ front := by
  fun_induction shared front back with
  | case1 a as b bs hsame ih =>
      exact (List.mem_cons.mp hmem).elim (fun h => h ▸ List.mem_cons_self)
        fun h => List.mem_cons_of_mem a (ih h)
  | case2 => cases hmem
  | case3 => cases hmem

theorem mem_of_mem_foldl_shared {first : List (List Pattern)} {others : List (List (List Pattern))}
    {piece : List Pattern} (hmem : piece ∈ others.foldl shared first) : piece ∈ first := by
  induction others generalizing first with
  | nil => exact hmem
  | cons other others ih => exact mem_of_mem_shared (ih hmem)

theorem bounded_of_mem_pieces {a b : Pattern} {piece : List Pattern} (ha : a.bounded = true)
    (hpiece : piece ∈ a.pieces) (hmem : b ∈ piece) : b.bounded = true := by
  refine bounded_of_mem_steps ha ?_
  rw [← List.flatten_splitBy (r := fun before after => before.isLetter && after.isLetter) a.steps]
  exact List.mem_flatten.mpr ⟨piece, hpiece, hmem⟩

theorem bounded_factored {patterns : List Pattern} {alternatives : List (List (List Pattern))}
    {common : List (List Pattern)} (hpatterns : ∀ a ∈ patterns, a.bounded = true)
    (hpieces : ∀ alternative ∈ alternatives, ∀ piece ∈ alternative, ∀ b ∈ piece, b.bounded = true)
    (hcommon : ∀ piece ∈ common, ∀ b ∈ piece, b.bounded = true) :
    (if !common.isEmpty && alternatives.all (1 < ·.length) then
      sequence (common.flatten ++ [union (alternatives.map fun alternative =>
        ofSteps (alternative.drop common.length).flatten)])
    else union patterns).bounded = true := by
  split
  case isTrue =>
    refine bounded_sequence fun b hmem => ?_
    rcases List.mem_append.mp hmem with hshared | hrest
    · obtain ⟨piece, hpiece, hmem⟩ := List.mem_flatten.mp hshared
      exact hcommon piece hpiece b hmem
    · rw [List.mem_singleton.mp hrest]
      refine bounded_union fun a ha => ?_
      obtain ⟨alternative, halternative, rfl⟩ := List.mem_map.mp ha
      refine bounded_ofSteps fun b hmem => ?_
      obtain ⟨piece, hpiece, hmem⟩ := List.mem_flatten.mp hmem
      exact hpieces alternative halternative piece (List.mem_of_mem_drop hpiece) b hmem
  case isFalse => exact bounded_union hpatterns

theorem bounded_choice {patterns : List Pattern}
    (hpatterns : ∀ a ∈ patterns, a.bounded = true) : (choice patterns).bounded = true := by
  have hpieces : ∀ alternative ∈ (patterns.flatMap branches).map Pattern.pieces,
      ∀ piece ∈ alternative, ∀ b ∈ piece, b.bounded = true := by
    intro alternative halternative piece hpiece b hmem
    obtain ⟨branch, hbranch, rfl⟩ := List.mem_map.mp halternative
    obtain ⟨a, ha, hbranch⟩ := List.mem_flatMap.mp hbranch
    exact bounded_of_mem_pieces (bounded_of_mem_branches (hpatterns a ha) hbranch) hpiece hmem
  refine bounded_factored hpatterns hpieces fun piece hpiece => ?_
  -- the shared pieces are pieces of the first alternative
  split at hpiece
  case h_1 first second others heq =>
    refine hpieces first ?_ piece (mem_of_mem_foldl_shared hpiece)
    rw [heq]
    exact List.mem_cons_self
  case h_2 => cases hpiece

end TokenCodec.Regex.Pattern
