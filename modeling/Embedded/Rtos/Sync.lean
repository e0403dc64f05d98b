import Embedded.Rtos.Sched

/-! # Mutexes and semaphores of the RTOS (`kernel/sync.c`)

Every function is one or more sections under the lock of the module. A blocking call is a loop around
one such section: it succeeds, or it blocks the current task and yields, and the section is tried
again when the task runs next. -/

namespace Embedded.Rtos

/-- A number stored in an `int8_t`. -/
def toInt8 (n : Nat) : Int := ((n + 128) % 256 : Nat) - 128

/-- A number stored in an `int16_t`. -/
def toInt16 (n : Int) : Int := (n + 32768) % 65536 - 32768

/-- `struct mutex`. -/
structure Mutex where
  owner : Int
  waiters : BitVec 32

/-- `struct semaphore`. -/
structure Semaphore where
  count : Int
  waiters : BitVec 32

/-- The section of `mutex_lock`; it says whether the mutex was taken. -/
def mutexTry (s : Sched) (cpu : Nat) (m : Mutex) : Bool × Sched × Mutex :=
  if m.owner < 0 then (true, s, { m with owner := toInt8 (s.current cpu) })
  else
    let r := schedBlock s cpu m.waiters
    (false, r.1, { m with waiters := r.2 })

/-- `mutex_unlock`. -/
def mutexUnlock (s : Sched) (m : Mutex) : Sched × Mutex :=
  let r := schedWake s m.waiters
  (r.1, ⟨-1, r.2⟩)

/-- `sem_give`. -/
def semGive (s : Sched) (m : Semaphore) : Sched × Semaphore :=
  let r := schedWake s m.waiters
  (r.1, ⟨toInt16 (m.count + 1), r.2⟩)

/-- The section of `sem_take`; it says whether the semaphore was taken. -/
def semTry (s : Sched) (cpu : Nat) (m : Semaphore) : Bool × Sched × Semaphore :=
  if 0 < m.count then (true, s, { m with count := m.count - 1 })
  else
    let r := schedBlock s cpu m.waiters
    (false, r.1, { m with waiters := r.2 })

/-- `sem_try_take`. -/
def semTryTake (m : Semaphore) : Bool × Semaphore :=
  if 0 < m.count then (true, { m with count := m.count - 1 }) else (false, m)

/-! ## What a try does to the table -/

theorem mutexTry_sched (s : Sched) (cpu : Nat) (m : Mutex) : (mutexTry s cpu m).2.1 = s ∨
      (mutexTry s cpu m).2.1 = s.modify (s.current cpu) (Task.leave .blocked) := by
  unfold mutexTry
  split
  · exact .inl rfl
  · exact .inr rfl

theorem semTry_sched (s : Sched) (cpu : Nat) (m : Semaphore) : (semTry s cpu m).2.1 = s ∨
      (semTry s cpu m).2.1 = s.modify (s.current cpu) (Task.leave .blocked) := by
  unfold semTry
  split
  · exact .inl rfl
  · exact .inr rfl

end Embedded.Rtos
