import Embedded.Lib.Ring
import Embedded.Lib.Run

/-! # The log ring (`lib/log.c`)

`log_printf` puts its characters into the ring one by one, and the log task takes them out in batches of 64.
Neither takes a lock, so the model runs every task one access of the shared variables at a time. Two things lose
characters: the condition of the log task takes a character before it looks at the count, so that the one behind a
full batch is not sent; and a task that is preempted inside `buf_put` by another one that logs sets `log_head`
back. Where neither happens, the invariant says for each place of `buf_put` and `buf_get` what the task there may
still rely on, and that what was sent, followed by what is in the ring, is what was accepted. -/

namespace Embedded.Rtos

open Function (update update_self update_of_ne)

/-- `log_buf`, `log_head` and `log_tail`. -/
structure LogBuf where
  buf : Nat → UInt8
  head : Nat
  tail : Nat

/-- Where a task is in `buf_put`: outside, or before it compares `next` with `log_tail`, reads `log_head` again,
stores the character at that index, or stores `log_head`. -/
inductive Putting
  | out
  | compare (c : UInt8) (next : Nat)
  | index (c : UInt8) (next : Nat)
  | store (c : UInt8) (next i : Nat)
  | publish (c : UInt8) (next : Nat)
deriving DecidableEq

/-- Where the log task is in `buf_get`. -/
inductive Getting
  | compare
  | load
  | advance (c : UInt8)
deriving DecidableEq

/-- What the log task sends for a character. -/
def emit (c : UInt8) : List UInt8 := if c = 10 then [13, 10] else [c]

/-- The ring, the tasks and the count of the log task, with what went in and out so far. -/
structure LogSys where
  ring : LogBuf
  putting : Nat → Putting
  getting : Getting
  count : Nat
  accepted : List UInt8
  out : List UInt8

namespace LogSys

/-- The next access of task `t` in `buf_put`; from outside it calls it for `c`. -/
def bufPut (s : LogSys) (t : Nat) (c : UInt8) : LogSys :=
  match s.putting t with
  | .out => { s with putting := update s.putting t (.compare c ((s.ring.head + 1) % 512)) }
  | .compare c next =>
    -- full: the character is dropped
    { s with putting := update s.putting t (if next = s.ring.tail then .out else .index c next) }
  | .index c next => { s with putting := update s.putting t (.store c next s.ring.head) }
  | .store c next i =>
    { s with putting := update s.putting t (.publish c next)
             ring := { s.ring with buf := update s.ring.buf i c } }
  | .publish c next =>
    { s with putting := update s.putting t .out, ring := { s.ring with head := next }
             accepted := s.accepted ++ [c] }

/-- The next access of the log task in `buf_get`, and what it does with the result: the inner loop of `log_task`. -/
def logTask (s : LogSys) : LogSys :=
  match s.getting with
  | .compare => if s.ring.tail = s.ring.head then { s with count := 0 } else { s with getting := .load }
  | .load => { s with getting := .advance (s.ring.buf s.ring.tail) }
  | .advance c =>
    let s' := { s with getting := .compare, ring := { s.ring with tail := (s.ring.tail + 1) % 512 } }
    if s.count < 64 then { s' with count := s.count + 1, out := s.out ++ emit c } else { s' with count := 0 }

end LogSys

inductive LogAct
  | put (t : Nat) (c : UInt8)
  | poll

def LogSys.step (s : LogSys) : LogAct → LogSys
  | .put t c => s.bufPut t c
  | .poll => s.logTask

/-- The characters in the ring. -/
def LogBuf.content (b : LogBuf) : List UInt8 := ringList b.buf 512 b.tail ((b.head + 512 - b.tail) % 512)

/-- No task calls `buf_put` while another one is in it, and a batch ends before it has sent 64 characters or with
the ring empty. -/
def LogSys.Safe (s : LogSys) : LogAct → Prop
  | .put t _ => s.putting t = .out → ∀ u, s.putting u = .out
  | .poll => s.getting = .compare → s.count < 64 ∨ s.ring.tail = s.ring.head

/-- After `log_init`. -/
def LogSys.Init (s : LogSys) : Prop :=
  s.ring.head = 0 ∧ s.ring.tail = 0 ∧ (∀ t, s.putting t = .out) ∧ s.getting = .compare ∧
    s.accepted = [] ∧ s.out = []

/-- What a task in `buf_put` relies on. -/
def Putting.Ok (b : LogBuf) : Putting → Prop
  | .out => True
  | .compare _ next => next = (b.head + 1) % 512
  | .index _ next => next = (b.head + 1) % 512 ∧ next ≠ b.tail
  | .store _ next i => next = (b.head + 1) % 512 ∧ next ≠ b.tail ∧ i = b.head
  | .publish c next => next = (b.head + 1) % 512 ∧ next ≠ b.tail ∧ b.buf b.head = c

/-- What the log task relies on in `buf_get`. -/
def Getting.Ok (s : LogSys) : Getting → Prop
  | .compare => True
  | .load => s.ring.tail ≠ s.ring.head ∧ s.count < 64
  | .advance c => s.ring.tail ≠ s.ring.head ∧ s.count < 64 ∧ s.ring.buf s.ring.tail = c

structure LogSys.Inv (s : LogSys) : Prop where
  head : s.ring.head < 512
  tail : s.ring.tail < 512
  alone : ∀ t u, s.putting t ≠ .out → s.putting u ≠ .out → t = u
  puts : ∀ t, (s.putting t).Ok s.ring
  gets : s.getting.Ok s
  sent : s.out ++ s.ring.content.flatMap emit = s.accepted.flatMap emit

variable {s : LogSys} {b : LogBuf}

section

variable (hh : b.head < 512) (ht : b.tail < 512)
include hh ht

theorem content_store (c : UInt8) : ({ b with buf := update b.buf b.head c } : LogBuf).content = b.content := by
  have hpos : b.head = (b.tail + (b.head + 512 - b.tail) % 512) % 512 := by omega
  have hupdate := @ringList_update _ b.buf 512 b.tail _ (Nat.mod_lt (b.head + 512 - b.tail) (by decide)) c
  rwa [← hpos] at hupdate

theorem content_publish (hfull : (b.head + 1) % 512 ≠ b.tail) :
    ({ b with head := (b.head + 1) % 512 } : LogBuf).content = b.content ++ [b.buf b.head] := by
  have hn : ((b.head + 1) % 512 + 512 - b.tail) % 512 = (b.head + 512 - b.tail) % 512 + 1 := by omega
  have hpos : b.head = (b.tail + (b.head + 512 - b.tail) % 512) % 512 := by omega
  rw [LogBuf.content, LogBuf.content, hn, ringList_push, ← hpos]

theorem content_advance (hne : b.tail ≠ b.head) :
    b.content = b.buf b.tail :: ({ b with tail := (b.tail + 1) % 512 } : LogBuf).content := by
  have hn : (b.head + 512 - b.tail) % 512 = (b.head + 512 - (b.tail + 1) % 512) % 512 + 1 := by omega
  rw [LogBuf.content, hn, ringList_pop, Nat.mod_eq_of_lt ht, LogBuf.content]

end

namespace LogSys.Inv

/-- A step of task `t` that leaves every other task outside. -/
theorem others (inv : s.Inv) {t u : Nat} (h : s.putting t ≠ .out) (hu : u ≠ t) : s.putting u = .out := by
  by_contra hne
  exact hu (inv.alone u t hne h)

/-- Task `t` moves on to `p`, alone in `buf_put`; the ring may change where nobody else looks. -/
theorem moved {l : LogSys} {t : Nat} {p : Putting} (hother : ∀ u, u ≠ t → s.putting u = .out)
    (hp : l.putting = update s.putting t p) (hok : p.Ok l.ring) (hhead : l.ring.head < 512)
    (htail : l.ring.tail < 512) (hget : l.getting.Ok l)
    (hsent : l.out ++ l.ring.content.flatMap emit = l.accepted.flatMap emit) : l.Inv := by
  have hout : ∀ u, u ≠ t → l.putting u = .out := by
    intro u hu
    rw [hp, update_of_ne hu]
    exact hother u hu
  refine ⟨hhead, htail, fun u v hu hv => ?_, fun u => ?_, hget, hsent⟩
  · have h : ∀ w, l.putting w ≠ .out → w = t := fun w hw => by_contra fun h => hw (hout w h)
    rw [h u hu, h v hv]
  by_cases hu : u = t
  · rw [hp, hu, update_self]
    exact hok
  rw [hout u hu]
  trivial

theorem bufPut (inv : s.Inv) (t : Nat) (c : UInt8) (h : s.Safe (.put t c)) : (s.bufPut t c).Inv := by
  have hok := inv.puts t
  have hother : s.putting t ≠ .out → ∀ u, u ≠ t → s.putting u = .out := fun ht u hu => inv.others ht hu
  rw [LogSys.bufPut]
  cases hpc : s.putting t with
  | out => exact moved (fun u _ => h hpc u) rfl rfl inv.head inv.tail inv.gets inv.sent
  | compare c next =>
    rw [hpc] at hok hother
    have hmove : (if next = s.ring.tail then .out else .index c next : Putting).Ok s.ring := by
      split
      · trivial
      · next hne => exact ⟨hok, hne⟩
    exact moved (hother nofun) rfl hmove inv.head inv.tail inv.gets inv.sent
  | index c next =>
    rw [hpc] at hok hother
    exact moved (hother nofun) rfl ⟨hok.1, hok.2, rfl⟩ inv.head inv.tail inv.gets inv.sent
  | store c next i =>
    rw [hpc] at hok hother
    obtain ⟨hnext, hne, rfl⟩ := hok
    have hgets : s.getting.Ok { s with ring := { s.ring with buf := update s.ring.buf s.ring.head c } } := by
      have hgets := inv.gets
      cases hg : s.getting with
      | compare => trivial
      | load => rwa [hg] at hgets
      | advance d =>
        -- the log task reads another cell
        rw [hg] at hgets
        refine ⟨hgets.1, hgets.2.1, ?_⟩
        rw [← hgets.2.2]
        exact update_of_ne hgets.1 _ _
    refine moved (hother nofun) rfl ⟨hnext, hne, update_self ..⟩ inv.head inv.tail hgets ?_
    simp only [content_store inv.head inv.tail]
    exact inv.sent
  | publish c next =>
    rw [hpc] at hok hother
    obtain ⟨rfl, hne, rfl⟩ := hok
    have hgets : s.getting.Ok { s with ring := { s.ring with head := (s.ring.head + 1) % 512 } } := by
      have hgets := inv.gets
      cases hg : s.getting with
      | compare => trivial
      | load =>
        rw [hg] at hgets
        exact ⟨hne.symm, hgets.2⟩
      | advance d =>
        rw [hg] at hgets
        exact ⟨hne.symm, hgets.2⟩
    refine moved (hother nofun) rfl trivial (Nat.mod_lt _ (by decide)) inv.tail hgets ?_
    simp only [content_publish inv.head inv.tail hne, List.flatMap_append, ← inv.sent, List.append_assoc]

/-- When the log task frees a cell, a task in `buf_put` still finds the ring not full. -/
theorem puts_advance (inv : s.Inv) (hne : s.ring.tail ≠ s.ring.head) (t : Nat) :
    (s.putting t).Ok { s.ring with tail := (s.ring.tail + 1) % 512 } := by
  have hh := inv.head
  have ht := inv.tail
  have hok := inv.puts t
  cases hpc : s.putting t with
  | out => trivial
  | compare c next => rwa [hpc] at hok
  | index c next =>
    rw [hpc] at hok
    exact ⟨hok.1, by have := hok.1; simp only; omega⟩
  | store c next i =>
    rw [hpc] at hok
    exact ⟨hok.1, by have := hok.1; simp only; omega, hok.2.2⟩
  | publish c next =>
    rw [hpc] at hok
    exact ⟨hok.1, by have := hok.1; simp only; omega, hok.2.2⟩

theorem logTask (inv : s.Inv) (h : s.Safe .poll) : s.logTask.Inv := by
  have hgets := inv.gets
  rw [LogSys.logTask]
  cases hg : s.getting with
  | compare =>
    simp only
    split
    · exact ⟨inv.head, inv.tail, inv.alone, inv.puts, trivial, inv.sent⟩
    · next hne => exact ⟨inv.head, inv.tail, inv.alone, inv.puts, ⟨hne, (h hg).resolve_right hne⟩, inv.sent⟩
  | load =>
    rw [hg] at hgets
    exact ⟨inv.head, inv.tail, inv.alone, inv.puts, ⟨hgets.1, hgets.2, rfl⟩, inv.sent⟩
  | advance c =>
    rw [hg] at hgets
    obtain ⟨hne, hcount, rfl⟩ := hgets
    simp only [if_pos hcount]
    refine ⟨inv.head, Nat.mod_lt _ (by decide), inv.alone, inv.puts_advance hne, trivial, ?_⟩
    rw [← inv.sent, content_advance inv.head inv.tail hne, List.flatMap_cons, List.append_assoc]

theorem step (inv : s.Inv) (a : LogAct) (h : s.Safe a) : (s.step a).Inv := by
  cases a with
  | put t c => exact inv.bufPut t c h
  | poll => exact inv.logTask h

end LogSys.Inv

/-- **The log task sends what the ring accepted**, each character once and in order, the rest being still in the
ring, in every interleaving of the tasks' accesses in which no task enters `buf_put` while another one is in it and
no batch goes on behind its 64th character. -/
theorem log_lossless (h : Reachable LogSys.step LogSys.Safe LogSys.Init s) :
    s.out ++ s.ring.content.flatMap emit = s.accepted.flatMap emit := by
  have inv : s.Inv := by
    refine h.invariant (fun s hs => ?_) fun s a hok inv => inv.step a hok
    obtain ⟨hh, ht, hp, hg, ha, ho⟩ := hs
    refine ⟨by omega, by omega, fun t _ h => absurd (hp t) h, fun t => by rw [hp t]; trivial,
      by rw [hg]; trivial, ?_⟩
    rw [LogBuf.content, hh, ht, ha, ho]
    rfl
  exact inv.sent

/-- The log right after `log_init`. -/
def emptyLog : LogSys := ⟨⟨fun _ => 0, 0, 0⟩, fun _ => .out, .compare, 0, [], []⟩

/-- Task `t` puts a character without being interrupted. -/
def putChar (t : Nat) (c : UInt8) : List LogAct := List.replicate 5 (.put t c)

/-- Task 1 puts a character, and the log task takes it while task 1 puts a line end. -/
def logLine : List LogAct :=
  putChar 1 65 ++ [.put 1 10, .poll, .put 1 10, .put 1 10, .poll, .put 1 10, .poll, .put 1 10]

theorem log_lossless_line :
    let s := runFrom LogSys.step emptyLog logLine
    s.out ++ s.ring.content.flatMap emit = [65, 13, 10] := by
  have hok : AllOk LogSys.step LogSys.Safe emptyLog logLine := by
    have hout : ∀ u, (runFrom LogSys.step emptyLog (putChar 1 65)).putting u = .out := by
      simp [runFrom, LogSys.step, LogSys.bufPut, putChar, emptyLog]
    have hin : ∀ l : LogSys, l.putting 1 ≠ .out → ∀ c, l.Safe (.put 1 c) := fun l h c h0 => absurd h0 h
    refine ⟨fun _ _ => rfl, hin _ (by decide) _, hin _ (by decide) _, hin _ (by decide) _, hin _ (by decide) _,
      fun _ => hout, fun _ => .inl (by decide), hin _ (by decide) _, hin _ (by decide) _, fun h => absurd h (by decide),
      hin _ (by decide) _, fun h => absurd h (by decide), hin _ (by decide) _, trivial⟩
  have hinit : emptyLog.Init := ⟨rfl, rfl, fun _ => rfl, rfl, rfl, rfl⟩
  exact log_lossless (.runFrom (.init hinit) _ hok)

/-- Of 65 characters the last one is not sent. And if task 1 is preempted before it stores `log_head`, what task 2
puts meanwhile is lost. -/
theorem log_drops_65th :
    (let s := runFrom LogSys.step emptyLog ((List.replicate 65 (putChar 1 65)).flatten ++ List.replicate 196 .poll)
    s.accepted.length = 65 ∧ s.out.length = 64 ∧ s.ring.content = []) ∧
    let s := runFrom LogSys.step emptyLog
      ([.put 1 65] ++ putChar 2 66 ++ putChar 2 67 ++ List.replicate 4 (.put 1 65) ++ List.replicate 10 .poll)
    s.accepted = [66, 67, 65] ∧ s.out.length < 3 ∧ s.ring.content = [] := by decide +kernel

end Embedded.Rtos
