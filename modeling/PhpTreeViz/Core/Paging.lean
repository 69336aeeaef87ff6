import Mathlib.Data.List.Sort
import PhpTreeViz.Core.Grouping

/-!
# Paging through a sorted list

A client that asks for one page after the other, and an engine that sorts anew for each of them. Two
sorts agree only up to the order of rows with equal keys, so that the pages fit together as long as
no page boundary lies within a group of such rows.
-/

namespace Core

variable {α β γ : Type*}

/-! ### Fetching -/

/-- `out` is what a client has from the page `k` on, when it goes on as long as a page says that
there are more. A request may also fail. -/
inductive Fetches (page : ℕ → Option (List γ × Bool)) : ℕ → List γ → Prop where
  | last {k : ℕ} {items : List γ} : page k = some (items, false) → Fetches page k items
  | more {k : ℕ} {items rest : List γ} : page k = some (items, true) → Fetches page (k + 1) rest →
      Fetches page k (items ++ rest)

namespace Fetches

variable {page : ℕ → Option (List γ × Bool)} {p : ℕ → List γ}

lemma unique {k : ℕ} {out out' : List γ} (h : Fetches page k out) (h' : Fetches page k out') :
    out = out' := by
  induction h generalizing out' with
  | last hpage =>
    cases h' with
    | last hpage'   => simpa using hpage.symm.trans hpage'
    | more hpage' _ => simpa using hpage.symm.trans hpage'
  | more hpage _ ih =>
    cases h' with
    | last hpage'       => simpa using hpage.symm.trans hpage'
    | more hpage' hrest =>
      obtain ⟨rfl, -⟩ := Prod.mk.inj (Option.some.inj (hpage.symm.trans hpage'))
      rw [ih hrest]

/-- A client that has all pages up to the last one, which is the page `n`. -/
lemma of_last {n : ℕ} (hpage : ∀ k ≤ n, page k = some (p k, decide (k < n))) {k : ℕ} (hk : k ≤ n) :
    Fetches page k ((List.range' k (n + 1 - k)).flatMap p) := by
  induction hd : n - k generalizing k with
  | zero =>
    obtain rfl : k = n := by omega
    rw [show k + 1 - k = 1 by omega]
    simpa using last (by simpa using hpage k le_rfl)
  | succ d ih =>
    have hlt : k < n := by omega
    have hstep : List.range' k (n + 1 - k) = k :: List.range' (k + 1) (n + 1 - (k + 1)) := by
      rw [show n + 1 - k = n + 1 - (k + 1) + 1 by omega, List.range'_succ]
    rw [hstep, List.flatMap_cons]
    exact more (by simpa [hlt] using hpage k hk) (ih hlt (by omega))

lemma of_last_zero {n : ℕ} (hpage : ∀ k ≤ n, page k = some (p k, decide (k < n))) :
    Fetches page 0 ((List.range (n + 1)).flatMap p) := by
  rw [List.range_eq_range']
  exact of_last hpage (Nat.zero_le n)

end Fetches

/-- A page of a list. -/
def slice (l : List α) (limit offset : ℕ) : List α := (l.drop offset).take limit

lemma length_slice (l : List α) (limit offset : ℕ) :
    (slice l limit offset).length = min limit (l.length - offset) := by
  simp [slice]

/-- The pages of a list up to some end are the list up to there. -/
lemma flatMap_slice (l : List α) (limit n : ℕ) :
    ((List.range n).flatMap fun k => slice l limit (k * limit)) = l.take (n * limit) := by
  induction n with
  | zero => simp
  | succ n ih =>
    rw [List.range_succ, List.flatMap_append, ih, List.flatMap_singleton, slice, Nat.succ_mul,
      List.take_add]

lemma mem_slice {xs ys : List α} {a : α} {limit offset : ℕ} (hlow : offset ≤ xs.length)
    (hhigh : xs.length < offset + limit) : a ∈ slice (xs ++ a :: ys) limit offset := by
  refine List.mem_of_getElem? (i := xs.length - offset) ?_
  rw [slice, List.getElem?_take_of_lt (by omega), List.getElem?_drop,
    show offset + (xs.length - offset) = xs.length by omega]
  simp

/-! ### Sorting up to ties -/

variable [LinearOrder β] {key : α → β}

/-- How an engine answers `ORDER BY key DESC`: the order among rows with equal keys is its own. -/
structure DescBy (key : α → β) where
  sort : List α → List α
  perm : ∀ rows, (sort rows).Perm rows
  sorted : ∀ rows, (sort rows).Pairwise fun a b => key b ≤ key a

namespace DescBy

/-- An engine that keeps the order of rows with equal keys. -/
def stable (key : α → β) : DescBy key where
  sort rows := rows.insertionSort fun a b => key b ≤ key a
  perm rows := List.perm_insertionSort _ rows
  sorted rows := by
    have : Std.Total fun a b : α => key b ≤ key a := ⟨fun a b => le_total (key b) (key a)⟩
    have : IsTrans α fun a b : α => key b ≤ key a := ⟨fun a b c hab hbc => hbc.trans hab⟩
    exact List.pairwise_insertionSort _ rows

/-- The same engine, but with the answer `l` for the rows `rows`. -/
def answer [DecidableEq α] (o : DescBy key) {rows l : List α} (hperm : l.Perm rows)
    (hsorted : l.Pairwise fun a b => key b ≤ key a) : DescBy key where
  sort rows' := if rows' = rows then l else o.sort rows'
  perm rows' := by
    split_ifs with h
    · exact h ▸ hperm
    · exact o.perm rows'
  sorted rows' := by
    split_ifs
    · exact hsorted
    · exact o.sorted rows'

@[simp] lemma sort_answer [DecidableEq α] (o : DescBy key) {rows l : List α} (hperm : l.Perm rows)
    (hsorted : l.Pairwise fun a b => key b ≤ key a) :
    (o.answer hperm hsorted).sort rows = l := if_pos rfl

end DescBy

/-- The number of rows that come before `a` in every sort. -/
def rank (key : α → β) (rows : List α) (a : α) : ℕ := rows.countP (key a < key ·)

/-- The position `m` lies within the rows of one key. -/
def Splits (key : α → β) (rows : List α) (m : ℕ) : Prop :=
  ∃ b, rows.countP (b < key ·) < m ∧ m < rows.countP (b ≤ key ·)

lemma Splits.perm {rows rows' : List α} {m : ℕ} (hperm : rows.Perm rows') :
    Splits key rows m ↔ Splits key rows' m := by
  simp only [Splits, hperm.countP_eq]

section sorted

variable {l xs ys : List α} {a : α} {m : ℕ}

lemma rank_le_length (h : (xs ++ a :: ys).Pairwise fun a b => key b ≤ key a) :
    rank key (xs ++ a :: ys) a ≤ xs.length := by
  obtain ⟨-, hys, -⟩ := List.pairwise_append.mp h
  have hzero : (a :: ys).countP (key a < key ·) = 0 := by
    rw [List.countP_eq_zero]
    intro c hc
    rcases List.mem_cons.mp hc with rfl | hc
    · simp
    · simpa using List.rel_of_pairwise_cons hys hc
  rw [rank, List.countP_append, hzero]
  exact List.countP_le_length

lemma length_lt_countP_le (h : (xs ++ a :: ys).Pairwise fun a b => key b ≤ key a) :
    xs.length < (xs ++ a :: ys).countP (key a ≤ key ·) := by
  obtain ⟨-, -, hxs⟩ := List.pairwise_append.mp h
  have hall : xs.countP (key a ≤ key ·) = xs.length :=
    List.countP_eq_length.mpr fun c hc => by simpa using hxs c hc a List.mem_cons_self
  rw [List.countP_append, List.countP_cons_of_pos (by simp), hall]
  omega

lemma rank_lt_of_mem_take (h : l.Pairwise fun a b => key b ≤ key a) (ha : a ∈ l.take m) :
    rank key l a < m := by
  obtain ⟨xs, ys, htake⟩ := List.append_of_mem ha
  have hl : l = xs ++ a :: (ys ++ l.drop m) := by
    rw [← List.cons_append, ← List.append_assoc, ← htake, List.take_append_drop]
  have hlen : xs.length < m := by
    have := congrArg List.length htake
    simp only [List.length_take, List.length_append, List.length_cons] at this
    omega
  rw [hl] at h ⊢
  exact (rank_le_length h).trans_lt hlen

lemma le_rank_of_mem_drop (h : l.Pairwise fun a b => key b ≤ key a)
    (hsplit : ¬ Splits key l m) (ha : a ∈ l.drop m) : m ≤ rank key l a := by
  obtain ⟨xs, ys, hdrop⟩ := List.append_of_mem ha
  have hl : l = (l.take m ++ xs) ++ a :: ys := by
    rw [List.append_assoc, ← hdrop, List.take_append_drop]
  have hlen : m ≤ (l.take m ++ xs).length := by
    have := congrArg List.length hdrop
    simp only [List.length_drop, List.length_append, List.length_cons, List.length_take] at this ⊢
    omega
  by_contra hlt
  refine hsplit ⟨key a, Nat.lt_of_not_le hlt, ?_⟩
  have hcount := length_lt_countP_le (hl ▸ h)
  rw [← hl] at hcount
  exact hlen.trans_lt hcount

lemma rank_lt_length (h : l.Pairwise fun a b => key b ≤ key a) (ha : a ∈ l) :
    rank key l a < l.length :=
  rank_lt_of_mem_take h (by rwa [List.take_length])

/-- The positions of the rows of one key. -/
lemma key_eq_of_countP {b : β} (h : (xs ++ a :: ys).Pairwise fun a b => key b ≤ key a)
    (hlow : (xs ++ a :: ys).countP (b < key ·) ≤ xs.length)
    (hhigh : xs.length < (xs ++ a :: ys).countP (b ≤ key ·)) : key a = b := by
  rcases lt_trichotomy (key a) b with hlt | heq | hgt
  · have hle : (xs ++ a :: ys).countP (b ≤ key ·) ≤ rank key (xs ++ a :: ys) a :=
      List.countP_mono_left fun c _ hc => by simpa using hlt.trans_le (by simpa using hc)
    have := rank_le_length h
    omega
  · exact heq
  · have hle : (xs ++ a :: ys).countP (key a ≤ key ·) ≤ (xs ++ a :: ys).countP (b < key ·) :=
      List.countP_mono_left fun c _ hc => by simpa using hgt.trans_le (by simpa using hc)
    have := length_lt_countP_le h
    omega

/-- Between two boundaries that split no key lie the rows whose rank lies between them. -/
lemma slice_eq_filter {limit : ℕ} (h : l.Pairwise fun a b => key b ≤ key a)
    (hsplit : ∀ k, ¬ Splits key l (k * limit)) (k : ℕ) : slice l limit (k * limit) =
      l.filter fun a => k * limit ≤ rank key l a ∧ rank key l a < (k + 1) * limit := by
  have hslice : slice l limit (k * limit) ⊆ l.take ((k + 1) * limit) := by
    rw [slice, Nat.succ_mul, List.take_drop]
    exact List.drop_subset _ _
  have hl : l = l.take (k * limit) ++ (slice l limit (k * limit) ++ l.drop ((k + 1) * limit)) := by
    rw [slice, Nat.succ_mul, ← List.drop_drop, List.take_append_drop, List.take_append_drop]
  conv_rhs => rw [hl]
  rw [List.filter_append, List.filter_append, ← hl]
  have hbefore : (l.take (k * limit)).filter
      (fun a => k * limit ≤ rank key l a ∧ rank key l a < (k + 1) * limit) = [] := by
    refine List.filter_eq_nil_iff.mpr fun a ha => ?_
    have := rank_lt_of_mem_take h ha
    simp only [decide_eq_true_eq]
    omega
  have hafter : (l.drop ((k + 1) * limit)).filter
      (fun a => k * limit ≤ rank key l a ∧ rank key l a < (k + 1) * limit) = [] := by
    refine List.filter_eq_nil_iff.mpr fun a ha => ?_
    have := le_rank_of_mem_drop h (hsplit _) ha
    simp only [decide_eq_true_eq]
    omega
  rw [hbefore, hafter, List.nil_append, List.append_nil]
  refine (List.filter_eq_self.mpr fun a ha => ?_).symm
  have hlow := le_rank_of_mem_drop h (hsplit k) (List.mem_of_mem_take ha)
  have hhigh := rank_lt_of_mem_take h (hslice ha)
  simpa using ⟨hlow, hhigh⟩

end sorted

/-! ### Two sorts -/

section splice

variable {l l' rows : List α} {m : ℕ}

/-- Before a boundary that splits no key stand the rows whose rank lies before it. -/
lemma take_eq_filter (h : l.Pairwise fun a b => key b ≤ key a) (hsplit : ¬ Splits key l m) :
    l.take m = l.filter fun a => rank key l a < m := by
  have hbefore : (l.take m).filter (fun a => rank key l a < m) = l.take m :=
    List.filter_eq_self.mpr fun a ha => decide_eq_true (rank_lt_of_mem_take h ha)
  have hafter : (l.drop m).filter (fun a => rank key l a < m) = [] := by
    refine List.filter_eq_nil_iff.mpr fun a ha => ?_
    simpa using le_rank_of_mem_drop h hsplit ha
  calc l.take m
      = (l.take m ++ l.drop m).filter fun a => rank key l a < m := by
        rw [List.filter_append, hbefore, hafter, List.append_nil]
    _ = l.filter fun a => rank key l a < m := by rw [List.take_append_drop]

/-- Two sorts have the same rows before a boundary that splits no key. -/
lemma perm_take (hperm : l.Perm l') (h : l.Pairwise fun a b => key b ≤ key a)
    (h' : l'.Pairwise fun a b => key b ≤ key a) (hsplit : ¬ Splits key l m) :
    (l.take m).Perm (l'.take m) := by
  rw [take_eq_filter h hsplit, take_eq_filter h' ((Splits.perm hperm).not.mp hsplit)]
  refine (hperm.filter _).trans (List.Perm.of_eq (List.filter_congr fun a _ => ?_))
  rw [rank, rank, hperm.countP_eq]

/-- There one sort may be continued with the other. -/
lemma perm_splice (hperm : l.Perm l') (h : l.Pairwise fun a b => key b ≤ key a)
    (h' : l'.Pairwise fun a b => key b ≤ key a) (hsplit : ¬ Splits key l m) :
    (l.take m ++ l'.drop m).Perm l' := by
  have happend := (perm_take hperm h h' hsplit).append_right (l'.drop m)
  rwa [List.take_append_drop] at happend

lemma sorted_splice (hperm : l.Perm l') (h : l.Pairwise fun a b => key b ≤ key a)
    (h' : l'.Pairwise fun a b => key b ≤ key a) (hsplit : ¬ Splits key l m) :
    (l.take m ++ l'.drop m).Pairwise fun a b => key b ≤ key a := by
  rw [List.pairwise_append]
  refine ⟨h.sublist (List.take_sublist m l), h'.sublist (List.drop_sublist m l'), ?_⟩
  intro a ha b hb
  have hwhole := h'
  rw [← List.take_append_drop m l', List.pairwise_append] at hwhole
  exact hwhole.2.2 a ((perm_take hperm h h' hsplit).mem_iff.mp ha) b hb

/-- Rows with different keys can be parted anywhere. -/
lemma not_splits_of_nodup (h : (rows.map key).Nodup) (m : ℕ) : ¬ Splits key rows m := by
  rintro ⟨b, hlow, hhigh⟩
  have hle : rows.countP (b ≤ key ·) ≤ rows.countP (b < key ·) + (rows.map key).count b := by
    clear hlow hhigh h
    induction rows with
    | nil => exact Nat.le_refl 0
    | cons a rows ih =>
      simp only [List.countP_cons, List.map_cons, List.count_cons, decide_eq_true_eq, beq_iff_eq]
      rcases lt_trichotomy b (key a) with hlt | heq | hgt
      · simp only [hlt, hlt.le, if_true]
        omega
      · simp only [heq, le_refl, lt_irrefl, if_true, if_false]
        rw [heq] at ih
        omega
      · simp only [hgt.not_ge, hgt.not_gt, if_false]
        omega
  have hcount := List.nodup_iff_count_le_one.mp h b
  omega

/-- The list that is continued begins with the rows so far and the next page. -/
lemma take_splice {offset : ℕ} (h : offset ≤ l.length) (l' : List α) (limit : ℕ) :
    (l.take offset ++ l'.drop offset).take (offset + (slice l' limit offset).length) =
      l.take offset ++ slice l' limit offset := by
  have hlength : (l.take offset).length = offset := by rw [List.length_take, min_eq_left h]
  have hpage : (l'.drop offset).take (slice l' limit offset).length = slice l' limit offset := by
    rw [length_slice, slice, ← List.length_drop, ← List.take_eq_take_min]
  have happend := @List.take_length_add_append α (l.take offset) (l'.drop offset)
    (slice l' limit offset).length
  rwa [hlength, hpage] at happend

end splice

/-! ### Pages of several sorts -/

section pages

variable {rows : List α} {limit : ℕ}

/-- When no boundary splits a key, the pages of different sorts are the pages of one list. -/
lemma perm_flatMap_slice (orders : ℕ → DescBy key) (hpos : 0 < limit)
    (hsplit : ∀ k, ¬ Splits key rows (k * limit)) {n : ℕ} (hn : rows.length ≤ n * limit) :
    ((List.range n).flatMap fun k => slice ((orders k).sort rows) limit (k * limit)).Perm rows := by
  have hrank : ∀ k a, rank key ((orders k).sort rows) a = rank key rows a := fun k a =>
    ((orders k).perm rows).countP_eq _
  have hpage : ∀ k, (slice ((orders k).sort rows) limit (k * limit)).Perm
      (rows.filter (rank key rows · / limit = k)) := by
    intro k
    rw [slice_eq_filter ((orders k).sorted rows)
      fun j => (Splits.perm ((orders k).perm rows)).not.mpr (hsplit j)]
    refine (((orders k).perm rows).filter _).trans (List.Perm.of_eq ?_)
    refine List.filter_congr fun a _ => ?_
    rw [hrank, decide_eq_decide, Nat.div_eq_iff hpos]
    rw [Nat.succ_mul]
    omega
  refine (List.Perm.flatMap_left _ fun k _ => hpage k).trans
    (perm_flatMap_groups List.nodup_range fun a ha => ?_).symm
  have hlt := rank_lt_length ((orders 0).sorted rows) (((orders 0).perm rows).mem_iff.mpr ha)
  rw [hrank, ((orders 0).perm rows).length_eq] at hlt
  exact List.mem_range.mpr (Nat.div_lt_of_lt_mul (by rw [Nat.mul_comm]; omega))

/-- Where a boundary splits a key, the two rows at it may change places. -/
lemma exists_swap {m : ℕ} (hsplit : Splits key rows m) : ∃ xs a b ys,
    xs.length + 1 = m ∧ (xs ++ a :: b :: ys).Perm rows ∧
    (xs ++ a :: b :: ys).Pairwise (fun a b => key b ≤ key a) ∧ key a = key b := by
  obtain ⟨b, hlow, hhigh⟩ := hsplit
  have hperm := (DescBy.stable key).perm rows
  have hsorted := (DescBy.stable key).sorted rows
  generalize (DescBy.stable key).sort rows = l at hperm hsorted
  rw [← hperm.countP_eq] at hlow hhigh
  have hlen : m < l.length := hhigh.trans_le List.countP_le_length
  have hl : l = l.take (m - 1) ++ l[m - 1] :: l[m] :: l.drop (m + 1) := by
    have hdrop : l.drop (m - 1) = l[m - 1] :: l.drop m := by
      rw [List.drop_eq_getElem_cons (by omega)]
      congr 2
      omega
    rw [← List.drop_eq_getElem_cons hlen, ← hdrop, List.take_append_drop]
  have htake : (l.take (m - 1)).length = m - 1 := by
    rw [List.length_take]
    omega
  refine ⟨l.take (m - 1), l[m - 1], l[m], l.drop (m + 1), by omega, hl ▸ hperm, hl ▸ hsorted, ?_⟩
  have hfirst : key l[m - 1] = b := by
    refine key_eq_of_countP (hl ▸ hsorted) ?_ ?_
    · rw [← hl]
      omega
    · rw [← hl]
      omega
  have hl' : l = (l.take (m - 1) ++ [l[m - 1]]) ++ l[m] :: l.drop (m + 1) := by
    rw [List.append_assoc]
    exact hl
  have hsecond : key l[m] = b := by
    refine key_eq_of_countP (hl' ▸ hsorted) ?_ ?_
    · rw [← hl', List.length_append, List.length_singleton]
      omega
    · rw [← hl', List.length_append, List.length_singleton]
      omega
  rw [hfirst, hsecond]

/-- The page `k`, and whether rows are left after it. -/
def sortedPage (orders : ℕ → DescBy key) (f : α → γ) (rows : List α) (limit k : ℕ) :
    List γ × Bool :=
  let items := (slice ((orders k).sort rows) limit (k * limit)).map f
  (items, decide (k * limit + items.length < rows.length))

lemma fetches_sortedPage (orders : ℕ → DescBy key) (f : α → γ) (hpos : 0 < limit) :
    Fetches (fun k => some (sortedPage orders f rows limit k)) 0
      ((List.range ((rows.length - 1) / limit + 1)).flatMap fun k =>
        (sortedPage orders f rows limit k).1) := by
  refine Fetches.of_last_zero fun k hk => ?_
  have hlast := Nat.div_mul_le_self (rows.length - 1) limit
  have hlt := Nat.lt_div_mul_add (a := rows.length - 1) hpos
  have hmul : k * limit ≤ (rows.length - 1) / limit * limit := Nat.mul_le_mul_right _ hk
  refine congrArg some (Prod.ext rfl ?_)
  simp only [sortedPage, List.length_map, length_slice, ((orders k).perm rows).length_eq,
    decide_eq_decide]
  constructor
  · intro hmore
    by_contra hge
    obtain rfl : k = (rows.length - 1) / limit := by omega
    omega
  · intro hless
    have : (k + 1) * limit ≤ (rows.length - 1) / limit * limit := Nat.mul_le_mul_right _ hless
    rw [Nat.succ_mul] at this
    omega

/-- Where the boundary before page `k` splits a key, a row may be on both sides of it. -/
lemma exists_mem_two_pages (f : α → γ) (hpos : 0 < limit) {k : ℕ}
    (hsplit : Splits key rows (k * limit)) : 0 < k ∧ k < (rows.length - 1) / limit + 1 ∧
      ∃ (orders : ℕ → DescBy key) (c : γ), c ∈ (sortedPage orders f rows limit (k - 1)).1 ∧
        c ∈ (sortedPage orders f rows limit k).1 := by
  classical
  obtain ⟨xs, a, b, ys, hlen, hperm, hsorted, hkey⟩ := exists_swap hsplit
  have hperm' : (xs ++ b :: a :: ys).Perm rows :=
    (List.Perm.append_left xs (List.Perm.swap a b ys)).trans hperm
  have hsorted' : (xs ++ b :: a :: ys).Pairwise fun a b => key b ≤ key a := by
    simp only [List.pairwise_append, List.pairwise_cons, List.mem_cons] at hsorted ⊢
    grind
  have hk : 0 < k := by
    rcases Nat.eq_zero_or_pos k with rfl | hk
    · omega
    · exact hk
  have hmul : (k - 1 + 1) * limit = k * limit := by rw [Nat.sub_add_cancel hk]
  rw [Nat.succ_mul] at hmul
  have hlength := hperm.length_eq
  simp only [List.length_append, List.length_cons] at hlength
  -- the engine changes its mind just before page `k`
  let orders : ℕ → DescBy key := fun j =>
    if j < k then (DescBy.stable key).answer hperm hsorted
    else (DescBy.stable key).answer hperm' hsorted'
  refine ⟨hk, ?_, orders, f a, ?_, ?_⟩
  · rw [Nat.lt_succ_iff, Nat.le_div_iff_mul_le hpos]
    omega
  · simp only [sortedPage, orders, if_pos (Nat.sub_lt hk one_pos), DescBy.sort_answer]
    exact List.mem_map_of_mem (mem_slice (by omega) (by omega))
  · simp only [sortedPage, orders, if_neg (lt_irrefl k), DescBy.sort_answer]
    have hmem : a ∈ slice ((xs ++ [b]) ++ a :: ys) limit (k * limit) :=
      mem_slice (by simp [hlen]) (by simp; omega)
    rw [List.append_assoc] at hmem
    exact List.mem_map_of_mem hmem

/-- Whatever the engine does with ties, a client has every row once, exactly if no page boundary
splits the rows of a key. -/
theorem fetches_perm_iff {f : α → γ} (hnodup : (rows.map f).Nodup)
    (hpos : 0 < limit) :
    (∀ orders : ℕ → DescBy key, ∃ out,
      Fetches (fun k => some (sortedPage orders f rows limit k)) 0 out ∧
      out.Perm (rows.map f)) ↔ ∀ k, ¬ Splits key rows (k * limit) := by
  have hlast := Nat.lt_div_mul_add (a := rows.length - 1) hpos
  constructor
  · intro hall k hsplit
    obtain ⟨hk, hrange, orders, c, hbefore, hafter⟩ := exists_mem_two_pages f hpos hsplit
    obtain ⟨out, hout, houtPerm⟩ := hall orders
    obtain rfl := hout.unique (fetches_sortedPage orders f hpos)
    have hdisjoint := (List.nodup_flatMap.mp (houtPerm.nodup_iff.mpr hnodup)).2
    have := List.pairwise_iff_getElem.mp hdisjoint (k - 1) k (by simp; omega)
      (by simpa using hrange)
      (by omega)
    simp only [List.getElem_range, Function.onFun] at this
    exact this hbefore hafter
  · intro hsplit orders
    refine ⟨_, fetches_sortedPage orders f hpos, ?_⟩
    simp only [sortedPage, ← List.map_flatMap]
    refine (perm_flatMap_slice orders hpos hsplit ?_).map f
    rw [Nat.succ_mul]
    omega

end pages

end Core
