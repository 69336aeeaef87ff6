import Mathlib.Data.Nat.Init
import Mathlib.Data.Set.Function
import Mathlib.Tactic.Lemma

/-!
# Paths in a tree with parent links

A forest given by its parent links, in which a parent has the smaller number. The path of a node
is the list of the labels from its root down to it. When no two nodes have the same parent and the
same label, the path identifies the node.

`PathFrom` is the path of a node in a tree whose nodes have no order. It is a relation, since the
links alone do not bound the number of steps to the root.
-/

namespace Core

variable {α : Type*}

/-- The labels on the way down to `n`, read off by at most `fuel` steps up. `up n` is the parent of
`n` with the label of the edge. -/
def pathTo (up : ℕ → Option (ℕ × α)) : ℕ → ℕ → List α
  | 0, _        => []
  | fuel + 1, n =>
    match up n with
    | some (p, a) => pathTo up fuel p ++ [a]
    | none        => []

/-- A node is fewer than `n + 1` steps below its root. -/
def pathOf (up : ℕ → Option (ℕ × α)) (n : ℕ) : List α := pathTo up (n + 1) n

/-- Parents have smaller numbers. -/
def Descending (up : ℕ → Option (ℕ × α)) : Prop := ∀ n p a, up n = some (p, a) → p < n

variable {up : ℕ → Option (ℕ × α)}

/-- More fuel than the number of the node does not lengthen its path. -/
lemma pathTo_of_lt (hup : Descending up) {fuel n : ℕ} (h : n < fuel) :
    pathTo up fuel n = pathOf up n := by
  induction n using Nat.strong_induction_on generalizing fuel with
  | _ n ih =>
    cases fuel with
    | zero => omega
    | succ fuel =>
      rw [pathOf, pathTo, pathTo]
      cases hn : up n with
      | none => rfl
      | some e =>
        obtain ⟨p, a⟩ := e
        have hp := hup n p a hn
        simp only [ih p hp (show p < fuel by omega), ih p hp hp]

lemma pathOf_of_none {n : ℕ} (h : up n = none) : pathOf up n = [] := by
  rw [pathOf, pathTo, h]

lemma pathOf_of_some (hup : Descending up) {n p : ℕ} {a : α} (h : up n = some (p, a)) :
    pathOf up n = pathOf up p ++ [a] := by
  rw [pathOf, pathTo, h]
  simp only [pathTo_of_lt hup (hup n p a h)]

/-- Nodes with different links have different paths. -/
theorem pathOf_injOn (hup : Descending up) {S : Set ℕ}
    (hclosed : ∀ n ∈ S, ∀ p a, up n = some (p, a) → p ∈ S) (hinj : Set.InjOn up S) :
    Set.InjOn (pathOf up) S := by
  intro n hn m hm heq
  induction n using Nat.strong_induction_on generalizing m with
  | _ n ih =>
    apply hinj hn hm
    cases hupn : up n with
    | none =>
      cases hupm : up m with
      | none => rfl
      | some e =>
        rw [pathOf_of_none hupn, pathOf_of_some hup hupm] at heq
        simp at heq
    | some e =>
      obtain ⟨p, a⟩ := e
      rw [pathOf_of_some hup hupn] at heq
      cases hupm : up m with
      | none =>
        rw [pathOf_of_none hupm] at heq
        simp at heq
      | some e =>
        obtain ⟨q, b⟩ := e
        rw [pathOf_of_some hup hupm] at heq
        obtain ⟨hpath, hlabel⟩ := List.append_inj' heq rfl
        obtain rfl := ih p (hup n p a hupn) (hclosed n hn p a hupn) (hclosed m hm q b hupm) hpath
        rw [List.singleton_inj.mp hlabel]

/-! ### Nodes without an order -/

variable {ν : Type*}

/-- `π` is the list of the labels on the way from `root` down to a node. -/
inductive PathFrom (up : ν → Option (ν × α)) (root : ν) : ν → List α → Prop where
  | root : PathFrom up root root []
  | child {n p : ν} {a : α} {π : List α} :
      up n = some (p, a) → PathFrom up root p π → PathFrom up root n (π ++ [a])

namespace PathFrom

variable {up up' : ν → Option (ν × α)} {root n m : ν} {π π' : List α}

/-- More links do not change a path. -/
lemma mono (hup : ∀ n e, up n = some e → up' n = some e) (h : PathFrom up root n π) :
    PathFrom up' root n π := by
  induction h with
  | root => exact .root
  | child hn _ ih => exact .child (hup _ _ hn) ih

/-- A node has one path when the root has no parent. -/
lemma unique (hroot : up root = none) (h : PathFrom up root n π) (h' : PathFrom up root n π') :
    π = π' := by
  induction h generalizing π' with
  | root =>
    cases h' with
    | root => rfl
    | child hn _ => simp [hroot] at hn
  | child hn _ ih =>
    cases h' with
    | root => simp [hroot] at hn
    | child hn' hp' =>
      obtain ⟨rfl, rfl⟩ := Prod.mk.inj (Option.some.inj (hn.symm.trans hn'))
      rw [ih hp']

lemma nil_iff : PathFrom up root n [] ↔ n = root := by
  constructor
  · intro h
    obtain ⟨π₂, hπ⟩ : ∃ π₂ : List α, π₂ = [] := ⟨_, rfl⟩
    rw [← hπ] at h
    cases h with
    | root => rfl
    | child _ _ => simp at hπ
  · rintro rfl
    exact .root

lemma exists_of_concat {a : α} (h : PathFrom up root n (π ++ [a])) :
    ∃ p, up n = some (p, a) ∧ PathFrom up root p π := by
  obtain ⟨π₂, hπ⟩ : ∃ π₂, π₂ = π ++ [a] := ⟨_, rfl⟩
  rw [← hπ] at h
  cases h with
  | root => simp at hπ
  | child hn hp =>
    obtain ⟨rfl, hlabel⟩ := List.append_inj' hπ rfl
    obtain rfl := List.singleton_inj.mp hlabel
    exact ⟨_, hn, hp⟩

/-- A path leads to one node when no two nodes have the same link. -/
lemma eq_of_path (hinj : ∀ n m e, up n = some e → up m = some e → n = m)
    (h : PathFrom up root n π) (h' : PathFrom up root m π) : n = m := by
  induction h generalizing m with
  | root => exact (nil_iff.mp h').symm
  | child hn _ ih =>
    obtain ⟨q, hm, hq⟩ := h'.exists_of_concat
    obtain rfl := ih hq
    exact hinj _ _ _ hn hm

end PathFrom

end Core
