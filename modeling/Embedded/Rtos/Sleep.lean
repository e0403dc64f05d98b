import Embedded.Rtos.Sched

/-! # How long a task sleeps

`sched_sleep_ms` adds to the tick counter modulo 2^32, and `pick_next` compares the sum as a number. -/

namespace Embedded.Rtos

open Function (update_self update_of_ne)
open List

variable {s : Sched} {i cpu sp now : Nat}

/-- Every task the scan has visited is woken if it is due. -/
theorem foldl_pickStep_woken (tasks : Nat → Task) {cs : List Nat} {c : Nat} (h : c ∈ cs) :
    (cs.foldl (pickStep cpu now) ⟨tasks, none, 255⟩).tasks c = wakeDue now (tasks c) := by
  induction cs using reverseRecOn with
  | nil => cases h
  | append_singleton cs d ih => ?_
  obtain ⟨hinv, -⟩ := scan_spec cpu now tasks cs
  rw [foldl_append, foldl_cons, foldl_nil, pickStep_eq hinv]
  by_cases hc : c = d
  · subst hc
    split <;> exact update_self ..
  have hmem : c ∈ cs := (mem_append.1 h).resolve_right fun hd => hc (mem_singleton.1 hd)
  split <;> exact (update_of_ne hc ..).trans (ih hmem)

theorem savedTable_sleeping (h : (s.tasks i).state = .sleeping) :
    ((savedTable s cpu sp now).tasks i).state = .sleeping ∧
      ((savedTable s cpu sp now).tasks i).wakeTick = (s.tasks i).wakeTick := by
  by_cases hi : i = s.current cpu
  · rw [savedTable, hi, Sched.modify_self, ← hi, saveOld]
    simp [h]
  rw [savedTable, Sched.modify_of_ne hi]
  exact ⟨h, rfl⟩

/-- Some task can run. -/
def Busy (s : Sched) (cpu sp now : Nat) : Prop :=
  s.current cpu < s.numTasks ∧
    ∃ c < s.numTasks, Eligible cpu now ((savedTable s cpu sp now).tasks c)

/-- **A pass over a sleeping task** leaves it, or wakes it if it is due. -/
theorem schedPreempt_sleeping (hi : i < s.numTasks) (hbusy : Busy s cpu sp now)
    (h : (s.tasks i).state = .sleeping) :
    if (s.tasks i).wakeTick ≤ now then ((schedPreempt s cpu sp now).2.tasks i).state ≠ .sleeping
    else ((schedPreempt s cpu sp now).2.tasks i).state = .sleeping ∧
      ((schedPreempt s cpu sp now).2.tasks i).wakeTick = (s.tasks i).wakeTick := by
  obtain ⟨hst, hwt⟩ := savedTable_sleeping h
  have hpick : (pickNext (savedTable s cpu sp now) cpu now).2.tasks i =
      wakeDue now ((savedTable s cpu sp now).tasks i) := by
    rw [pickNext_snd]
    exact foldl_pickStep_woken _ (mem_scanOrder_of_lt hbusy.1 hi)
  by_cases hn : i = nextTask s cpu sp now
  · have hdue : (s.tasks i).wakeTick ≤ now := by
      by_contra hlate
      -- only a task the scan found ready is switched to
      have hel : Eligible cpu now ((savedTable s cpu sp now).tasks i) :=
        hn ▸ (pickNext_eligible (s := savedTable s cpu sp now) hbusy.1 hbusy.2).2.1
      rw [Eligible, wakeDue, if_neg (by rw [hwt]; exact fun hd => hlate hd.2), hst] at hel
      exact nomatch hel.1
    rw [if_pos hdue, hn, schedPreempt_next]
    exact nofun
  rw [schedPreempt_other hn, hpick, wakeDue, hst, hwt]
  by_cases hdue : (s.tasks i).wakeTick ≤ now
  · rw [if_pos hdue, if_pos ⟨rfl, hdue⟩]
    exact nofun
  rw [if_neg hdue, if_neg fun hd => hdue hd.2]
  exact ⟨hst, hwt⟩

/-- The passes of the scheduler from tick `now` on, at least one at each tick: pass `k` is `elapsed k` ticks
    later, and turns the table `σ k`, in which nobody else touches the sleeping task `i`, into `σ (k + 1)`. -/
structure Passes (i now : Nat) (elapsed : Nat → Nat) (σ : Nat → Sched) : Prop where
  first : elapsed 0 = 0
  next : ∀ k, elapsed (k + 1) ≤ elapsed k + 1
  pass : ∀ k, ∃ s cpu sp, (((σ k).tasks i).state = .sleeping → s.tasks i = (σ k).tasks i) ∧
    i < s.numTasks ∧ Busy s cpu sp (add32 now (elapsed k)) ∧
    σ (k + 1) = (schedPreempt s cpu sp (add32 now (elapsed k))).2

section Passes

variable {ms : Nat} {elapsed : Nat → Nat} {σ : Nat → Sched}

theorem Passes.step (hp : Passes i now elapsed σ) {k : Nat} (h : ((σ k).tasks i).state = .sleeping) :
    if ((σ k).tasks i).wakeTick ≤ add32 now (elapsed k) then ((σ (k + 1)).tasks i).state ≠ .sleeping
    else ((σ (k + 1)).tasks i).state = .sleeping ∧
      ((σ (k + 1)).tasks i).wakeTick = ((σ k).tasks i).wakeTick := by
  obtain ⟨s, cpu, sp, hs, hi, hbusy, hσ⟩ := hp.pass k
  rw [hσ, ← hs h]
  exact schedPreempt_sleeping hi hbusy (hs h ▸ h)

/-- Without a wrap the task sleeps up to the pass at its tick. -/
theorem Passes.sleeping (hp : Passes i now elapsed σ) (hsum : now + ms < 4294967296)
    (hst : ((σ 0).tasks i).state = .sleeping) (hwt : ((σ 0).tasks i).wakeTick = now + ms) {k : Nat}
    (hk : ∀ j < k, elapsed j < ms) : ((σ k).tasks i).state = .sleeping ∧
      ((σ k).tasks i).wakeTick = now + ms ∧ elapsed k ≤ ms := by
  induction k with
  | zero => exact ⟨hst, hwt, hp.first.le.trans ms.zero_le⟩
  | succ k ih => ?_
  obtain ⟨hs, hw, -⟩ := ih fun j hj => hk j (hj.trans k.lt_succ_self)
  have hlt := hk k k.lt_succ_self
  have hpass := hp.step hs
  rw [hw, add32_of_lt (by omega), if_neg (by omega)] at hpass
  exact ⟨hpass.1, hpass.2, (hp.next k).trans hlt⟩

/-- **A task sleeps exactly as long as asked**, up to the first pass after the full duration and not
    longer, if and only if the tick of its end does not wrap. -/
theorem sleep_exact_iff (hnow : now < 4294967296) (hms : ms < 4294967296)
    (h0 : (σ 0).tasks (s.current cpu) = (schedSleepMs s cpu now ms).tasks (s.current cpu))
    (hp : Passes (s.current cpu) now elapsed σ) :
    (∀ k, (∀ j < k, elapsed j < ms) →
      (((σ (k + 1)).tasks (s.current cpu)).state = .sleeping ↔ elapsed k < ms)) ↔
      now + ms < 4294967296 := by
  rw [schedSleepMs, Sched.modify_self] at h0
  have hst : ((σ 0).tasks (s.current cpu)).state = .sleeping := by rw [h0]; rfl
  have hwt : ((σ 0).tasks (s.current cpu)).wakeTick = add32 now ms := by rw [h0]; rfl
  constructor
  · intro hexact
    by_contra hwrap
    have hpass := hp.step hst
    -- the sum has wrapped to a tick that is already over
    rw [hwt, hp.first, if_pos (by unfold add32; omega)] at hpass
    refine hpass ((hexact 0 fun j hj => absurd hj j.not_lt_zero).2 ?_)
    rw [hp.first]
    omega
  intro hsum k hk
  rw [add32_of_lt hsum] at hwt
  obtain ⟨hs, hw, hle⟩ := hp.sleeping hsum hst hwt hk
  have hpass := hp.step hs
  rw [hw, add32_of_lt (by omega)] at hpass
  by_cases hlt : elapsed k < ms
  · rw [if_neg (by omega)] at hpass
    exact ⟨fun _ => hlt, fun _ => hpass.1⟩
  · rw [if_pos (by omega)] at hpass
    exact ⟨fun hsl => absurd hsl hpass, fun h => absurd h hlt⟩

end Passes

/-- A running task and an idle one. -/
def napTasks : Sched where
  tasks i := if i = 0 then ⟨0, .running, 0, some 0, 1, 0, 0⟩ else ⟨0, .ready, 0, none, 255, 0, 0⟩
  numTasks := 2
  current _ := 0

theorem sleep_exact_one_tick :
    let σ0 := schedSleepMs napTasks 0 7 1
    let σ1 := (schedPreempt σ0 0 0 7).2
    (σ1.tasks 0).state = .sleeping ∧ ((schedPreempt σ1 0 0 8).2.tasks 0).state ≠ .sleeping := by
  intro σ0 σ1
  have hbusy : Busy σ1 0 0 8 := ⟨by decide, 1, by decide +kernel⟩
  have hrun : ((schedPreempt σ1 0 0 8).2.tasks 0).state ≠ .sleeping := by decide +kernel
  have hp : Passes (napTasks.current 0) 7 (fun | 0 => 0 | _ => 1)
      (fun | 0 => σ0 | 1 => σ1 | _ => (schedPreempt σ1 0 0 8).2) := ⟨rfl, by rintro (_ | _) <;> simp, fun
    | 0 => ⟨σ0, 0, 0, fun _ => rfl, by decide, ⟨by decide, 1, by decide +kernel⟩, rfl⟩
    | 1 => ⟨σ1, 0, 0, fun _ => rfl, by decide, hbusy, rfl⟩
    | k + 2 => ⟨σ1, 0, 0, fun hs => absurd hs hrun, by decide, hbusy, rfl⟩⟩
  have h := (@sleep_exact_iff napTasks 0 7 1 _ _ (by decide) (by decide) rfl hp).2 (by decide)
  exact ⟨(h 0 (by decide)).2 Nat.one_pos, fun hs => absurd ((h 1 (by decide)).1 hs) (Nat.lt_irrefl 1)⟩

/-- A task that asks for five ticks at the last value of the counter is woken at once. -/
theorem sleep_wraps :
    ((schedPreempt (schedSleepMs napTasks 0 4294967295 5) 0 0 4294967295).2.tasks 0).state = .running := by
  decide +kernel

end Embedded.Rtos
