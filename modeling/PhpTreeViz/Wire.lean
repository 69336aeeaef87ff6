import PhpTreeViz.Core.Numeric

/-!
# Wire types of the ingest path

The decoded form of one MessagePack batch: the `meta` block, the `dict` entries seen for the first
time, and the calls in the order in which they exited.
-/

namespace PhpTreeViz

open Core

structure Meta where
  schemaVersion : UInt32
  traceId : String
  host : String
  pid : UInt64
  startTime : Int64
  sapi : String
  uriOrScript : String
  droppedRecords : UInt64
  deriving DecidableEq, Inhabited

/-- One first-sight function entry inside `dict`. -/
structure DictEntry where
  fnId : UInt32
  fqn : String
  file : String
  line : UInt32
  kind : UInt8
  deriving DecidableEq, Inhabited

/-- One per-call record. `parent = 0` means a top-level call. -/
structure Call where
  callId : UInt32
  parent : UInt32
  fnId : UInt32
  depth : UInt32
  tIn : Int64
  tOut : Int64
  cpuU : Int64
  cpuS : Int64
  memIn : Int64
  memOut : Int64
  abnormalExit : Bool
  deriving DecidableEq, Inhabited

structure Batch where
  metaBlock : Meta
  dict : List DictEntry
  calls : List Call
  deriving DecidableEq, Inhabited

namespace Call

/-- `t_out.saturating_sub(t_in).max(0)` -/
def wall (c : Call) : Int64 := max (satSub c.tOut c.tIn) 0

/-- `mem_out.saturating_sub(mem_in)` -/
def memDelta (c : Call) : Int64 := satSub c.memOut c.memIn

/-- The exit timestamp precedes the entry timestamp. -/
def Inverted (c : Call) : Prop := c.tOut < c.tIn

instance (c : Call) : Decidable c.Inverted := inferInstanceAs (Decidable (_ < _))

/-- The wall time of a call over the integers. -/
def exactWall (c : Call) : ℤ := max 0 (c.tOut.toInt - c.tIn.toInt)

/-- The memory growth of a call over the integers. -/
def exactMemDelta (c : Call) : ℤ := c.memOut.toInt - c.memIn.toInt

lemma toInt_wall (c : Call) :
    c.wall.toInt = max 0 (min (2 ^ 63 - 1) (c.tOut.toInt - c.tIn.toInt)) := by
  have hsat := toInt_satSub c.tOut c.tIn
  by_cases h : satSub c.tOut c.tIn ≤ 0
  · have hle : (satSub c.tOut c.tIn).toInt ≤ 0 := by simpa using Int64.le_iff_toInt_le.mp h
    rw [wall, show max (satSub c.tOut c.tIn) 0 = 0 from if_pos h]
    simp only [Int64.toInt_zero]
    omega
  · have hlt : 0 < (satSub c.tOut c.tIn).toInt := by
      by_contra hle
      exact h (Int64.le_iff_toInt_le.mpr (by simpa using hle))
    rw [wall, show max (satSub c.tOut c.tIn) 0 = satSub c.tOut c.tIn from if_neg h]
    omega

lemma toInt_wall_nonneg (c : Call) : 0 ≤ c.wall.toInt := by
  rw [toInt_wall]
  exact le_max_left _ _

lemma not_inverted_iff {c : Call} : ¬ c.Inverted ↔ c.tIn.toInt ≤ c.tOut.toInt := by
  rw [Inverted, Int64.lt_iff_toInt_lt, not_lt]

lemma exactWall_nonneg (c : Call) : 0 ≤ c.exactWall := le_max_left _ _

lemma toInt_wall_le (c : Call) : c.wall.toInt ≤ c.exactWall := by
  rw [toInt_wall, exactWall]
  exact max_le_max le_rfl (min_le_right _ _)

/-- A wall time that fits in 64 bits is stored exactly. -/
lemma toInt_wall_of_fits {c : Call} (h : InI64 c.exactWall) : c.wall.toInt = c.exactWall := by
  have := h.2
  rw [toInt_wall]
  simp only [exactWall] at this ⊢
  omega

lemma toInt_memDelta_of_fits {c : Call} (h : InI64 c.exactMemDelta) :
    c.memDelta.toInt = c.exactMemDelta := by
  obtain ⟨hlo, hhi⟩ := h
  rw [memDelta, toInt_satSub]
  simp only [exactMemDelta] at hlo hhi ⊢
  omega

end Call

end PhpTreeViz
