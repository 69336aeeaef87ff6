import Mathlib.Data.Set.Basic

/-!
# Resolution

Each row of a set has a key and may need another key before it can be taken. `Resolves` is the
set of keys that the rows produce from a base set of keys. It lies in every set that contains the
base and is closed under the rows.
-/

namespace Core

variable {ρ κ : Type*} {key : ρ → κ} {need : ρ → Option κ} {rows : Set ρ} {base : Set κ}

/-- The keys that `rows` produce from the keys in `base`. -/
inductive Resolves (key : ρ → κ) (need : ρ → Option κ) (rows : Set ρ) (base : Set κ) :
    κ → Prop where
  | base {k : κ} : k ∈ base → Resolves key need rows base k
  | row {r : ρ} : r ∈ rows → (∀ k, need r = some k → Resolves key need rows base k) →
      Resolves key need rows base (key r)

namespace Resolves

/-- A set is closed when it contains the key of every row whose need it meets. -/
def Closed (key : ρ → κ) (need : ρ → Option κ) (rows : Set ρ) (S : Set κ) : Prop :=
  ∀ r ∈ rows, (∀ k, need r = some k → k ∈ S) → key r ∈ S

lemma mem_of_closed {S : Set κ} (hbase : base ⊆ S) (hS : Closed key need rows S) {k : κ}
    (h : Resolves key need rows base k) : k ∈ S := by
  induction h with
  | base hk => exact hbase hk
  | row hr _ ih => exact hS _ hr ih

end Resolves

end Core
