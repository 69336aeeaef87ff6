import Mathlib.Data.Rat.Floor
import Mathlib.Tactic.NormNum
import PhpTreeViz.Core.Cells
import PhpTreeViz.Core.Run
import PhpTreeViz.Viz.Detail

/-!
# The rendered window

The page builds elements only for the rows in its viewport and a few around them. The window is
computed anew whenever the list changes, and it is right for every scroll position, also one beyond
the end of a list that has become shorter.
-/

namespace PhpTreeViz

open Core

/-- Pixels are exact. `rowsContainer` holds the row and the index that each of its elements was
built from, and `translateY` is how far the container is shifted down. -/
structure Virtualizer (ρ : Type*) where
  scrollTop : ℚ
  clientHeight : ℚ
  rowHeight : ℚ
  overscan : ℕ
  rows : List ρ
  iFirst : ℤ
  iLast : ℤ
  spacerHeight : ℚ
  rowsContainer : List (Option ρ × ℤ)
  translateY : ℚ

namespace Virtualizer

variable {ρ : Type*} (v : Virtualizer ρ)

/-! ### The functions of the virtualizer -/

/-- Before its first `setRows`, on a viewport that is scrolled and as high as it may be. -/
def new (scrollTop clientHeight rowHeight : ℚ) (overscan : ℕ) : Virtualizer ρ where
  scrollTop := scrollTop
  clientHeight := clientHeight
  rowHeight := rowHeight
  overscan := overscan
  rows := []
  iFirst := 0
  iLast := 0
  spacerHeight := 0
  rowsContainer := []
  translateY := 0

def applyHeight : Virtualizer ρ := { v with spacerHeight := v.rows.length * v.rowHeight }

def computeWindow : ℤ × ℤ :=
  let firstVisible := ⌊v.scrollTop / v.rowHeight⌋
  let visibleCount := ⌈v.clientHeight / v.rowHeight⌉
  (max 0 (firstVisible - v.overscan),
    min v.rows.length (firstVisible + visibleCount + v.overscan))

/-- `rows[i]`, which is `undefined` outside of the list. -/
def rowAt (i : ℤ) : Option ρ := if 0 ≤ i then v.rows[i.toNat]? else none

def renderWindow : Virtualizer ρ :=
  let (iFirst, iLast) := v.computeWindow
  { v with
    iFirst := iFirst
    iLast := iLast
    rowsContainer := (List.range (iLast - iFirst).toNat).map fun k : ℕ =>
      (v.rowAt (iFirst + k), iFirst + k)
    translateY := iFirst * v.rowHeight }

def setRows (rows : List ρ) : Virtualizer ρ := { v with rows := rows }.applyHeight.renderWindow

def insertRowsAt (index : ℕ) (newRows : List ρ) : Virtualizer ρ :=
  if newRows.length = 0 then v
  else { v with
    rows := v.rows.take index ++ newRows ++ v.rows.drop index }.applyHeight.renderWindow

def removeRowsAt (index count : ℕ) : Virtualizer ρ :=
  if count = 0 then v
  else { v with
    rows := v.rows.take index ++ v.rows.drop (index + count) }.applyHeight.renderWindow

/-- The viewport was scrolled. -/
def onScroll (scrollTop : ℚ) : Virtualizer ρ := { v with scrollTop := scrollTop }.renderWindow

/-- The viewport has a new height. -/
def onResize (clientHeight : ℚ) : Virtualizer ρ :=
  { v with clientHeight := clientHeight }.renderWindow

/-! ### What is shown -/

/-- Where the element with number `k` is, below the top of the spacer. -/
def offsetTop (k : ℕ) : ℚ := v.translateY + k * v.rowHeight

/-- All rows in the viewport are shown, each in its place, and not many others. -/
structure Shows : Prop where
  complete : ∀ (i : ℕ) (row : ρ), v.rows[i]? = some row →
    CellMeets v.rowHeight v.scrollTop v.clientHeight i →
      (v.iFirst ≤ i ∧ i < v.iLast) ∧ (some row, (i : ℤ)) ∈ v.rowsContainer
  valid : ∀ x ∈ v.rowsContainer, ∃ i : ℕ, i < v.rows.length ∧ x = (v.rows[i]?, (i : ℤ))
  few : (v.rowsContainer.length : ℤ) ≤ ⌈v.clientHeight / v.rowHeight⌉ + 2 * v.overscan
  placed : ∀ k x, v.rowsContainer[k]? = some x → v.offsetTop k = x.2 * v.rowHeight

/-- The sizes that a viewport can have. -/
structure Sized : Prop where
  scrollTop : 0 ≤ v.scrollTop
  clientHeight : 0 ≤ v.clientHeight
  rowHeight : 0 < v.rowHeight
  overscan : 1 ≤ v.overscan

variable {v}

lemma Sized.applyHeight (h : v.Sized) (rows : List ρ) :
    ({ v with rows := rows }.applyHeight : Virtualizer ρ).Sized :=
  ⟨h.scrollTop, h.clientHeight, h.rowHeight, h.overscan⟩

lemma Sized.renderWindow (h : v.Sized) : v.renderWindow.Sized :=
  ⟨h.scrollTop, h.clientHeight, h.rowHeight, h.overscan⟩

lemma rowAt_natCast (i : ℕ) : v.rowAt i = v.rows[i]? := by simp [rowAt]

lemma mem_rowsContainer_renderWindow {x : Option ρ × ℤ} : x ∈ v.renderWindow.rowsContainer ↔
    (v.computeWindow.1 ≤ x.2 ∧ x.2 < v.computeWindow.2) ∧ x.1 = v.rowAt x.2 := by
  obtain ⟨row, i⟩ := x
  simp only [renderWindow, List.mem_map, List.mem_range, Prod.mk.injEq]
  constructor
  · rintro ⟨k, hk, rfl, rfl⟩
    refine ⟨?_, rfl⟩
    omega
  · rintro ⟨hi, rfl⟩
    refine ⟨(i - v.computeWindow.1).toNat, ?_, ?_⟩
    · omega
    · rw [Int.toNat_of_nonneg (by omega), add_sub_cancel]
      exact ⟨rfl, rfl⟩

/-- One row of overscan makes up for rounding the first row and the height apart. -/
theorem computeWindow_covers (hrow : 0 < v.rowHeight) (hover : 1 ≤ v.overscan) {i : ℕ}
    (hi : i < v.rows.length) (hmeets : CellMeets v.rowHeight v.scrollTop v.clientHeight i) :
    v.computeWindow.1 ≤ i ∧ i < v.computeWindow.2 := by
  obtain ⟨hfirst, hlast⟩ := hmeets.bounds hrow
  simp only [computeWindow]
  omega

lemma computeWindow_valid {i : ℤ} (h : v.computeWindow.1 ≤ i ∧ i < v.computeWindow.2) :
    0 ≤ i ∧ i < v.rows.length := by
  simp only [computeWindow] at h
  omega

lemma computeWindow_few : v.computeWindow.2 - v.computeWindow.1 ≤
    ⌈v.clientHeight / v.rowHeight⌉ + 2 * v.overscan := by
  simp only [computeWindow]
  omega

lemma visibleCount_nonneg (h : v.Sized) : 0 ≤ ⌈v.clientHeight / v.rowHeight⌉ :=
  Int.ceil_nonneg (div_nonneg h.clientHeight h.rowHeight.le)

theorem shows_renderWindow (h : v.Sized) : v.renderWindow.Shows where
  complete := by
    intro i row hrow hmeets
    have hi := computeWindow_covers h.rowHeight h.overscan
      (List.getElem?_eq_some_iff.mp hrow).1 hmeets
    refine ⟨hi, mem_rowsContainer_renderWindow.mpr ⟨hi, ?_⟩⟩
    rw [rowAt_natCast]
    exact hrow.symm
  valid := by
    intro x hx
    obtain ⟨hwindow, hrow⟩ := mem_rowsContainer_renderWindow.mp hx
    obtain ⟨hpos, hlt⟩ := computeWindow_valid hwindow
    obtain ⟨i, hi⟩ := Int.eq_ofNat_of_zero_le hpos
    rw [hi, rowAt_natCast] at hrow
    rw [hi] at hlt
    exact ⟨i, by exact_mod_cast hlt, Prod.ext hrow hi⟩
  few := by
    have hfew := v.computeWindow_few
    have hpos := visibleCount_nonneg h
    simp only [renderWindow, List.length_map, List.length_range]
    omega
  placed := by
    intro k x hx
    simp only [renderWindow, List.getElem?_map, Option.map_eq_some_iff] at hx
    obtain ⟨j, hj, rfl⟩ := hx
    obtain ⟨-, rfl⟩ := List.getElem?_eq_some_iff.mp hj
    change v.computeWindow.1 * v.rowHeight + k * v.rowHeight = _
    rw [List.getElem_range, ← add_mul]
    push_cast
    rfl

/-- Removing no rows does nothing, and every other removal computes the window anew. -/
lemma Shows.removeRowsAt (hs : v.Shows) (h : v.Sized) (index count : ℕ) :
    (v.removeRowsAt index count).Shows := by
  rw [Virtualizer.removeRowsAt]
  split_ifs
  · exact hs
  · exact shows_renderWindow (h.applyHeight _)

lemma Shows.insertRowsAt (hs : v.Shows) (h : v.Sized) (index : ℕ) (newRows : List ρ) :
    (v.insertRowsAt index newRows).Shows := by
  rw [Virtualizer.insertRowsAt]
  split_ifs
  · exact hs
  · exact shows_renderWindow (h.applyHeight _)

/-- The window is right for every list and every scroll position, and stays so when rows are
removed, however far the viewport is scrolled then. -/
theorem shows_window (v : Virtualizer ρ) (h : v.Sized) :
    v.renderWindow.Shows ∧ ∀ index count, (v.renderWindow.removeRowsAt index count).Shows := by
  have hs := shows_renderWindow h
  exact ⟨hs, fun index count => hs.removeRowsAt h.renderWindow index count⟩

/-- The viewport begins within the sixth of ten rows, of which only three are left then. -/
theorem shows_window_beyond_end :
    ((⟨150, 100, 28, 6, List.range 10, 0, 0, 0, [], 0⟩ :
        Virtualizer ℕ).renderWindow.removeRowsAt 3 7).Shows ∧
    ((⟨150, 100, 28, 6, List.range 10, 0, 0, 0, [], 0⟩ :
        Virtualizer ℕ).renderWindow.removeRowsAt 3 7).rowsContainer =
      [(some 0, 0), (some 1, 1), (some 2, 2)] :=
  ⟨(shows_window _ ⟨by norm_num, by norm_num, by norm_num, by decide⟩).2 3 7, by decide +kernel⟩

/-! ### Runs -/

inductive Event (ρ : Type*) where
  | setRows (rows : List ρ)
  | insertRowsAt (index : ℕ) (newRows : List ρ)
  | removeRowsAt (index count : ℕ)
  | scroll (scrollTop : ℚ)
  | resize (clientHeight : ℚ)

/-- Scroll positions and heights are not negative. -/
def Event.Sized : Event ρ → Prop
  | scroll scrollTop    => 0 ≤ scrollTop
  | resize clientHeight => 0 ≤ clientHeight
  | _                   => True

def handle (v : Virtualizer ρ) : Event ρ → Virtualizer ρ
  | .setRows rows               => v.setRows rows
  | .insertRowsAt index newRows => v.insertRowsAt index newRows
  | .removeRowsAt index count   => v.removeRowsAt index count
  | .scroll scrollTop           => v.onScroll scrollTop
  | .resize clientHeight        => v.onResize clientHeight

lemma shows_new {scrollTop clientHeight rowHeight : ℚ} {overscan : ℕ}
    (h : (new scrollTop clientHeight rowHeight overscan : Virtualizer ρ).Sized) :
    (new scrollTop clientHeight rowHeight overscan : Virtualizer ρ).Shows where
  complete := by simp [new]
  valid := by simp [new]
  few := by
    have := visibleCount_nonneg h
    simp only [new, List.length_nil] at this ⊢
    omega
  placed := by simp [new]

lemma Sized.handle (h : v.Sized) {e : Event ρ} (he : e.Sized) : (v.handle e).Sized := by
  cases e with
  | setRows rows => exact (h.applyHeight rows).renderWindow
  | insertRowsAt index newRows =>
    rw [Virtualizer.handle, Virtualizer.insertRowsAt]
    split_ifs
    · exact h
    · exact (h.applyHeight _).renderWindow
  | removeRowsAt index count =>
    rw [Virtualizer.handle, Virtualizer.removeRowsAt]
    split_ifs
    · exact h
    · exact (h.applyHeight _).renderWindow
  | scroll scrollTop =>
    exact Sized.renderWindow ⟨he, h.clientHeight, h.rowHeight, h.overscan⟩
  | resize clientHeight =>
    exact Sized.renderWindow ⟨h.scrollTop, he, h.rowHeight, h.overscan⟩

lemma Shows.handle (hs : v.Shows) (h : v.Sized) {e : Event ρ} (he : e.Sized) :
    (v.handle e).Shows := by
  cases e with
  | setRows rows => exact shows_renderWindow (h.applyHeight rows)
  | insertRowsAt index newRows => exact hs.insertRowsAt h index newRows
  | removeRowsAt index count => exact hs.removeRowsAt h index count
  | scroll scrollTop => exact shows_renderWindow ⟨he, h.clientHeight, h.rowHeight, h.overscan⟩
  | resize clientHeight => exact shows_renderWindow ⟨h.scrollTop, he, h.rowHeight, h.overscan⟩

/-- The window is right after every change of the list and of the viewport. -/
theorem shows_of_run {t : Virtualizer ρ} {es : List (Event ρ)}
    (hrun : Run (fun s e t => s.handle e = t) v es t) (hes : ∀ e ∈ es, e.Sized)
    (h : v.Sized) (hs : v.Shows) : t.Shows := by
  refine (hrun.invariant (I := fun v => v.Sized ∧ v.Shows) ?_ hes ⟨h, hs⟩).2
  rintro s e _ he rfl ⟨h, hs⟩
  exact ⟨h.handle he, hs.handle h he⟩

end Virtualizer

/-! ### The call tree -/

namespace Detail

/-- The row height and the overscan of the detail page. -/
def virtualizer (scrollTop clientHeight : ℚ) : Virtualizer Row := .new scrollTop clientHeight 28 6

/-- The row list of the page is the one that the virtualizer holds. -/
lemma rows_insertRowsAt (v : Virtualizer Row) (index : ℕ) (newRows : List Row) :
    (v.insertRowsAt index newRows).rows = insertRowsAt v.rows index newRows := by
  simp only [Virtualizer.insertRowsAt, insertRowsAt, List.length_eq_zero_iff]
  split_ifs
  · rfl
  · rfl

lemma rows_removeRowsAt (v : Virtualizer Row) (index count : ℕ) :
    (v.removeRowsAt index count).rows = removeRowsAt v.rows index count := by
  rw [Virtualizer.removeRowsAt]
  split_ifs with hcount
  · simp [removeRowsAt, hcount]
  · rfl

/-- The page of a trace shows the rows in its viewport at all times. -/
theorem shows_virtualizer {scrollTop clientHeight : ℚ} (hscroll : 0 ≤ scrollTop)
    (hclient : 0 ≤ clientHeight) {v : Virtualizer Row} {es : List (Virtualizer.Event Row)}
    (hrun : Run (fun s e t => s.handle e = t) (virtualizer scrollTop clientHeight) es v)
    (hes : ∀ e ∈ es, e.Sized) : v.Shows := by
  have h : (virtualizer scrollTop clientHeight).Sized := by
    refine ⟨hscroll, hclient, ?_, ?_⟩
    · norm_num [virtualizer, Virtualizer.new]
    · norm_num [virtualizer, Virtualizer.new]
  exact Virtualizer.shows_of_run hrun hes h (Virtualizer.shows_new h)

end Detail

end PhpTreeViz
