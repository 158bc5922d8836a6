import Mathlib.Data.List.NodupEquivFin
import Mathlib.Data.Fintype.Card
import Mathlib.Data.List.Forall2

namespace BitCrystal.Data

/-! Matching the elements of a list, in their order, with elements of another one. -/

variable {α β : Type} {test : α → β → Bool} {as : List α} {bs : List β}

/-- Each element has a partner of its own, and the partners are in the same order. -/
def Matching (test : α → β → Bool) (as : List α) (bs : List β) : Prop :=
  ∃ partner : Fin as.length ↪o Fin bs.length, ∀ i, test (as.get i) (bs.get (partner i)) = true

/-- Each element takes the first one of what is left that passes the test. -/
def greedy (test : α → β → Bool) : List α → List β → Bool
  | [], _ => true
  | _ :: _, [] => false
  | a :: as, b :: bs => if test a b then greedy test as bs else greedy test (a :: as) bs

theorem matching_iff_sublist : Matching test as bs ↔ as.SublistForall₂ (fun a b => test a b = true) bs := by
  rw [List.sublistForall₂_iff]
  constructor
  · rintro ⟨partner, passes⟩
    refine ⟨List.ofFn fun i => bs.get (partner i), ?_, ?_⟩
    · refine List.forall₂_iff_get.mpr ⟨by rw [List.length_ofFn], fun i first second => ?_⟩
      rw [List.get_ofFn]
      exact passes ⟨i, first⟩
    · refine List.sublist_iff_exists_fin_orderEmbedding_get_eq.mpr
        ⟨(Fin.castOrderIso (by rw [List.length_ofFn])).toOrderEmbedding.trans partner, fun i => ?_⟩
      rw [List.get_ofFn]
      rfl
  · rintro ⟨partners, passes, sublist⟩
    obtain ⟨length, passes⟩ := List.forall₂_iff_get.mp passes
    obtain ⟨place, same⟩ := List.sublist_iff_exists_fin_orderEmbedding_get_eq.mp sublist
    refine ⟨(Fin.castOrderIso length).toOrderEmbedding.trans place, fun i => ?_⟩
    have partner := passes i i.isLt (length ▸ i.isLt)
    rw [same] at partner
    exact partner

theorem Matching.tail {a : α} (matching : Matching test (a :: as) bs) : Matching test as bs := by
  rw [matching_iff_sublist, List.sublistForall₂_iff] at matching ⊢
  obtain ⟨partners, passes, sublist⟩ := matching
  cases passes with
  | cons first rest => exact ⟨_, rest, (List.sublist_cons_self _ _).trans sublist⟩

theorem matching_nil : Matching test [] bs :=
  matching_iff_sublist.mpr .nil

theorem not_matching_nil {a : α} : ¬ Matching test (a :: as) [] := by
  rintro ⟨partner, -⟩
  exact (partner ⟨0, Nat.zero_lt_succ _⟩).elim0

theorem matching_cons {a : α} {b : β} :
    Matching test (a :: as) (b :: bs) ↔ test a b = true ∧ Matching test as bs ∨ Matching test (a :: as) bs := by
  rw [matching_iff_sublist, matching_iff_sublist, matching_iff_sublist]
  constructor
  · intro matching
    cases matching with
    | cons passes rest => exact .inl ⟨passes, rest⟩
    | cons_right rest => exact .inr rest
  · rintro (⟨passes, rest⟩ | rest)
    · exact .cons passes rest
    · exact .cons_right rest

/-- Taking the first partner that passes never rules out a matching. -/
theorem greedy_iff : greedy test as bs = true ↔ Matching test as bs := by
  fun_induction greedy test as bs with
  | case1 bs => exact iff_of_true rfl matching_nil
  | case2 a as => exact iff_of_false Bool.false_ne_true not_matching_nil
  | case3 a as b bs passes ih =>
      rw [ih, matching_cons]
      exact ⟨fun rest => .inl ⟨passes, rest⟩, fun found => found.elim And.right Matching.tail⟩
  | case4 a as b bs fails ih =>
      rw [ih, matching_cons]
      exact ⟨.inr, fun found => found.resolve_left fun first => fails first.1⟩

theorem Matching.length_le (matching : Matching test as bs) : as.length ≤ bs.length := by
  obtain ⟨partner, -⟩ := matching
  simpa using Fintype.card_le_of_injective partner partner.injective

theorem Matching.reverse (matching : Matching test as bs) : Matching test as.reverse bs.reverse := by
  rw [matching_iff_sublist, List.sublistForall₂_iff] at matching ⊢
  obtain ⟨partners, passes, sublist⟩ := matching
  exact ⟨partners.reverse, List.forall₂_reverse_iff.mpr passes, sublist.reverse⟩

end BitCrystal.Data
