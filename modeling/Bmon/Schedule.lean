/-
This file models the timing of the main loop of `bmon.c`. Each iteration reads the clock, and
reads the inputs if the next read is due; the next read is then planned from the clock, the
read interval and how late this read is.

The main result is that the plan does not drift: whatever the clock shows at the iterations,
the reads are planned at the start plus whole multiples of the interval.
-/

import Bmon.Timestamp

namespace Bmon

/-- `timestamp_to_int`. -/
def timestampToInt (src : Timestamp) : Int := src.tvSec * 1000000 + src.tvUsec

/-- `timestamp_add`. -/
def timestampAdd (src1 src2 : Timestamp) : Timestamp :=
  if 1000000 ≤ src1.tvUsec + src2.tvUsec then
    ⟨src1.tvSec + src2.tvSec + 1, src1.tvUsec + src2.tvUsec - 1000000⟩
  else ⟨src1.tvSec + src2.tvSec, src1.tvUsec + src2.tvUsec⟩

/-- `timestamp_sub`. -/
def timestampSub (src1 src2 : Timestamp) : Timestamp :=
  if src1.tvUsec - src2.tvUsec < 0 then
    ⟨src1.tvSec - src2.tvSec - 1, src1.tvUsec - src2.tvUsec + 1000000⟩
  else ⟨src1.tvSec - src2.tvSec, src1.tvUsec - src2.tvUsec⟩

/-- `timestamp_le`. -/
def timestampLe (a b : Timestamp) : Bool :=
  if b.tvSec < a.tvSec then false
  else if a.tvSec < b.tvSec ∨ a.tvUsec ≤ b.tvUsec then true
  else false

/-! ### Timestamps as microseconds -/

theorem timestampToInt_add (first second : Timestamp) :
    timestampToInt (timestampAdd first second) =
      timestampToInt first + timestampToInt second := by
  unfold timestampAdd timestampToInt
  split <;> simp only <;> omega

theorem timestampToInt_sub (first second : Timestamp) :
    timestampToInt (timestampSub first second) =
      timestampToInt first - timestampToInt second := by
  unfold timestampSub timestampToInt
  split <;> simp only <;> omega

/-- One carry is enough for the sum of two normalised timestamps. -/
theorem timestampAdd_normalised {first second : Timestamp} (left : first.Normalised)
    (right : second.Normalised) : (timestampAdd first second).Normalised := by
  unfold timestampAdd Timestamp.Normalised at *
  split <;> simp only at * <;> omega

/-- One borrow is enough for a difference, also for a negative one. -/
theorem timestampSub_normalised {first second : Timestamp} (left : first.Normalised)
    (right : second.Normalised) : (timestampSub first second).Normalised := by
  unfold timestampSub Timestamp.Normalised at *
  split <;> simp only at * <;> omega

/-- On normalised timestamps the comparison is that of the microseconds. -/
theorem timestampLe_iff {first second : Timestamp} (left : first.Normalised)
    (right : second.Normalised) :
    timestampLe first second ↔ timestampToInt first ≤ timestampToInt second := by
  unfold timestampLe timestampToInt Timestamp.Normalised at *
  split
  · simp only [Bool.false_eq_true, false_iff, not_le]
    omega
  · split
    · simp only [true_iff]
      omega
    · simp only [Bool.false_eq_true, false_iff, not_le]
      omega

/-! ### The main loop -/

/-- The timing of the main loop, with the clock reading of each read done so far, the latest
last. -/
structure MainLoop where
  rtLastRead : Timestamp
  rtNextRead : Timestamp
  reads : List Timestamp
  deriving DecidableEq, Repr

/-- Before the first iteration the next read is due at once. -/
def MainLoop.start (now : Timestamp) : MainLoop := ⟨Timestamp.zero, now, []⟩

/-- One iteration of the main loop, with the clock reading `e`. -/
def MainLoop.iterate (ri : Timestamp) (loop : MainLoop) (e : Timestamp) : MainLoop :=
  if timestampLe loop.rtNextRead e then
    let c := timestampSub loop.rtNextRead e
    { rtLastRead := e
      rtNextRead := timestampAdd (timestampAdd e ri) c
      reads := loop.reads ++ [e] }
  else loop

/-- The main loop over the clock readings of its iterations. -/
def mainLoop (ri now : Timestamp) (clock : List Timestamp) : MainLoop :=
  clock.foldl (MainLoop.iterate ri) (MainLoop.start now)

/-- How long an iteration sleeps, with the configured `sleep_time`, in microseconds; nothing if
it goes on without sleeping. The comparison with the unsigned `st` is unsigned. -/
def MainLoop.sleep (loop : MainLoop) (sleepTime : UInt64) (e : Timestamp) : Option Int :=
  let tmp := timestampSub loop.rtNextRead e
  if tmp.tvSec < 0 then none
  else if tmp.tvSec = 0 ∧ tmp.tvUsec % 2 ^ 64 < sleepTime.toNat then
    if tmp.tvUsec < 0 then none else some tmp.tvUsec
  else some sleepTime.toNat

/-! ### The plan -/

/-- What holds in every iteration: the next read is planned one interval after the last, and
no read came before its time. -/
structure MainLoop.OnSchedule (ri now : Timestamp) (loop : MainLoop) : Prop where
  planned : loop.rtNextRead.Normalised
  nextRead : timestampToInt loop.rtNextRead =
    timestampToInt now + loop.reads.length * timestampToInt ri
  due : ∀ (k : Nat) (e : Timestamp), loop.reads[k]? = some e →
    timestampToInt now + k * timestampToInt ri ≤ timestampToInt e

theorem MainLoop.OnSchedule.start (ri : Timestamp) {now : Timestamp}
    (normalised : now.Normalised) : (MainLoop.start now).OnSchedule ri now where
  planned := normalised
  nextRead := by simp [MainLoop.start]
  due k e isRead := by simp [MainLoop.start] at isRead

/-- The interval is added to the planned time, not to the time of the read. -/
theorem timestampToInt_nextRead (next ri e : Timestamp) :
    timestampToInt (timestampAdd (timestampAdd e ri) (timestampSub next e)) =
      timestampToInt next + timestampToInt ri := by
  rw [timestampToInt_add, timestampToInt_add, timestampToInt_sub]
  ring

theorem MainLoop.OnSchedule.iterate {ri now : Timestamp} {loop : MainLoop} {e : Timestamp}
    (schedule : loop.OnSchedule ri now) (interval : ri.Normalised) (reading : e.Normalised) :
    (loop.iterate ri e).OnSchedule ri now := by
  unfold MainLoop.iterate
  split
  · rename_i isDue
    rw [timestampLe_iff schedule.planned reading] at isDue
    refine ⟨timestampAdd_normalised (timestampAdd_normalised reading interval)
      (timestampSub_normalised schedule.planned reading), ?_, ?_⟩
    · rw [timestampToInt_nextRead, schedule.nextRead, List.length_append, List.length_singleton]
      push_cast
      ring
    · intro k e' isRead
      rw [List.getElem?_append] at isRead
      split at isRead
      · exact schedule.due k e' isRead
      · -- this read: it is due, and its number is the number of reads before it
        obtain ⟨index, rfl⟩ : k - loop.reads.length = 0 ∧ e = e' := by
          simpa [List.getElem?_singleton] using isRead
        obtain rfl : k = loop.reads.length := by omega
        rw [schedule.nextRead] at isDue
        exact isDue
  · exact schedule

theorem mainLoop_onSchedule {ri now : Timestamp} {clock : List Timestamp}
    (normalised : now.Normalised) (interval : ri.Normalised)
    (readings : ∀ e ∈ clock, e.Normalised) : (mainLoop ri now clock).OnSchedule ri now := by
  unfold mainLoop
  have initial := MainLoop.OnSchedule.start ri normalised
  generalize MainLoop.start now = loop at initial
  induction clock generalizing loop with
  | nil => exact initial
  | cons e clock inductionHypothesis =>
    exact inductionHypothesis (fun e' member => readings e' (List.mem_cons_of_mem _ member)) _
      (initial.iterate interval (readings e List.mem_cons_self))

/-- A list has at most as many entries of a kind as there are indices one may stand at. -/
theorem length_filter_le_of_index {α : Type*} (kind : α → Bool) (bound : Nat) (entries : List α)
    (indices : ∀ (k : Nat) (entry : α), entries[k]? = some entry → kind entry → k < bound) :
    (entries.filter kind).length ≤ bound := by
  have rest : (entries.drop bound).filter kind = [] := by
    rw [List.filter_eq_nil_iff]
    intro entry member isKind
    obtain ⟨k, found⟩ := List.getElem?_of_mem member
    rw [List.getElem?_drop] at found
    exact absurd (indices _ entry found isKind) (by omega)
  calc (entries.filter kind).length
      = ((entries.take bound).filter kind).length := by
        rw [← List.take_append_drop bound entries, List.filter_append, rest]
        simp
    _ ≤ (entries.take bound).length := List.length_filter_le _ _
    _ ≤ bound := List.length_take_le _ _

/-- By any time there have been at most as many reads as planned times. -/
theorem MainLoop.OnSchedule.reads_le {ri now : Timestamp} {loop : MainLoop}
    (schedule : loop.OnSchedule ri now) (positive : 0 < timestampToInt ri) (time : Int)
    (started : timestampToInt now ≤ time) :
    ((loop.reads.filter fun e => timestampToInt e ≤ time).length : Int) ≤
      (time - timestampToInt now) / timestampToInt ri + 1 := by
  have nonneg : 0 ≤ (time - timestampToInt now) / timestampToInt ri :=
    Int.ediv_nonneg (by omega) positive.le
  have counted := length_filter_le_of_index (fun e => decide (timestampToInt e ≤ time))
    ((time - timestampToInt now) / timestampToInt ri + 1).toNat loop.reads (by
      intro k e isRead early
      have due := schedule.due k e isRead
      have early : timestampToInt e ≤ time := of_decide_eq_true early
      have index : (k : Int) ≤ (time - timestampToInt now) / timestampToInt ri :=
        (Int.le_ediv_iff_mul_le positive).mpr (by omega)
      omega)
  omega

/-- Before the start there is no read. -/
theorem MainLoop.OnSchedule.reads_before {ri now : Timestamp} {loop : MainLoop}
    (schedule : loop.OnSchedule ri now) (nonneg : 0 ≤ timestampToInt ri) (time : Int)
    (early : time < timestampToInt now) :
    loop.reads.filter (fun e => timestampToInt e ≤ time) = [] := by
  rw [List.filter_eq_nil_iff]
  intro e member isEarly
  obtain ⟨k, isRead⟩ := List.getElem?_of_mem member
  have due := schedule.due k e isRead
  have isEarly : timestampToInt e ≤ time := of_decide_eq_true isEarly
  have : 0 ≤ (k : Int) * timestampToInt ri := mul_nonneg (Int.natCast_nonneg k) nonneg
  omega

/-- The read schedule does not drift: after any sequence of clock readings the next read is
planned at the start plus one interval for each read, no read came before its own time, and so
the reads up to any time are bounded by the time since the start. -/
theorem mainLoop_schedule (now ri : Timestamp) (clock : List Timestamp)
    (started : now.Normalised) (interval : ri.Normalised)
    (readings : ∀ e ∈ clock, e.Normalised) :
    (mainLoop ri now clock).rtNextRead.Normalised ∧
      timestampToInt (mainLoop ri now clock).rtNextRead =
        timestampToInt now + (mainLoop ri now clock).reads.length * timestampToInt ri ∧
      (∀ (k : Nat) (e : Timestamp), (mainLoop ri now clock).reads[k]? = some e →
        timestampToInt now + k * timestampToInt ri ≤ timestampToInt e) ∧
      (0 < timestampToInt ri → ∀ time : Int,
        (time < timestampToInt now →
          (mainLoop ri now clock).reads.filter (fun e => timestampToInt e ≤ time) = []) ∧
        (timestampToInt now ≤ time →
          (((mainLoop ri now clock).reads.filter fun e => timestampToInt e ≤ time).length : Int)
            ≤ (time - timestampToInt now) / timestampToInt ri + 1)) := by
  have schedule := mainLoop_onSchedule started interval readings
  refine ⟨schedule.planned, schedule.nextRead, schedule.due, fun positive time => ⟨?_, ?_⟩⟩
  · exact schedule.reads_before positive.le time
  · exact schedule.reads_le positive time

/-- Three reads, the last two after a stall, at an interval of a second and a half. -/
theorem mainLoop_schedule_stall :
    timestampToInt
      (mainLoop ⟨1, 500000⟩ ⟨5, 900000⟩ [⟨5, 900001⟩, ⟨6, 0⟩, ⟨11, 100⟩, ⟨11, 200⟩]).rtNextRead =
        5900000 + 3 * 1500000 := by
  have scheduled := (mainLoop_schedule ⟨5, 900000⟩ ⟨1, 500000⟩
    [⟨5, 900001⟩, ⟨6, 0⟩, ⟨11, 100⟩, ⟨11, 200⟩] (by decide) (by decide) (by decide)).2.1
  rw [scheduled]
  decide

end Bmon
