import Mathlib.Algebra.BigOperators.Finprod

namespace BitCrystal.Data

open scoped BigOperators

/-! Sums of amounts kept under the keys of a finite type. -/

variable {κ : Type}

noncomputable def ledgerTotal (amounts : κ → Int) : Int :=
  ∑ᶠ key, amounts key

@[simp] theorem ledgerTotal_zero : ledgerTotal (fun _ : κ => 0) = 0 :=
  finsum_zero

theorem ledgerTotal_update [Finite κ] [DecidableEq κ] (amounts : κ → Int) (key : κ) (amount : Int) :
    ledgerTotal (Function.update amounts key amount) = ledgerTotal amounts - amounts key + amount := by
  have := Fintype.ofFinite κ
  rw [ledgerTotal, ledgerTotal, finsum_eq_sum_of_fintype, finsum_eq_sum_of_fintype,
    Finset.sum_update_of_mem (Finset.mem_univ key),
    ← Finset.add_sum_erase Finset.univ amounts (Finset.mem_univ key), Finset.erase_eq]
  omega

end BitCrystal.Data
