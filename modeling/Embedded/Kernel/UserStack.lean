import Embedded.Kernel.Image

/-! # The initial user stack, read back

`setup_user_stack` fills the top page of the stack from both ends: strings and random bytes from the
top, the vector of `argc`, pointers and auxiliary values below them. A program reads that page the
other way, from the stack pointer up (`readStack`, the walk that the dynamic linker's `_dl_main`
starts with). `setupUserStack_ok_iff` says when the reader finds what the kernel was given. -/

namespace Embedded.Kernel

open List

variable {s : Bytes} {ws : List Nat} {argv envp ss : List Bytes} {m : Mem}
  {pa lo sp x stackTop top : Nat}

/-! ## The reader -/

/-- The page `[pageLo, pageLo + 4096)` as the program sees it, when it lies at `pa`. -/
def userView (m : Mem) (pa pageLo : Nat) : Mem := fun va => m (pa + (va - pageLo))

/-- The C string at `a`, at most `fuel` bytes. -/
def readCstr (u : Mem) : Nat → Nat → Bytes
  | 0, _ => []
  | fuel + 1, a => if u a = 0 then [] else u a :: readCstr u fuel (a + 1)

/-- The `n` words from `a` on. -/
def readWords (u : Mem) : Nat → Nat → List Nat
  | 0, _ => []
  | n + 1, a => u.r32 a :: readWords u n (a + 4)

/-- The words from `a` on up to a null. -/
def readPtrs (u : Mem) : Nat → Nat → List Nat
  | 0, _ => []
  | fuel + 1, a => if u.r32 a = 0 then [] else u.r32 a :: readPtrs u fuel (a + 4)

/-- The auxiliary pairs from `a` on up to `AT_NULL`. -/
def readAux (u : Mem) : Nat → Nat → List (Nat × Nat)
  | 0, _ => []
  | fuel + 1, a =>
    if u.r32 a = 0 then [] else (u.r32 a, u.r32 (a + 4)) :: readAux u fuel (a + 8)

/-- What a program finds on its stack. -/
structure StackImage where
  argc : Nat
  argv : List Bytes
  /-- The word after the last argument pointer. -/
  argvEnd : Nat
  envp : List Bytes
  aux : List (Nat × Nat)

/-- Read the stack from `sp` as the ABI says. -/
def readStack (u : Mem) (sp : Nat) : StackImage :=
  let argc := u.r32 sp
  let envpAt := sp + 4 + 4 * argc + 4
  let envpVa := readPtrs u 1024 envpAt
  { argc := argc
    argv := (readWords u argc (sp + 4)).map (readCstr u 4096)
    argvEnd := u.r32 (sp + 4 + 4 * argc)
    envp := envpVa.map (readCstr u 4096)
    aux := readAux u 1024 (envpAt + 4 * envpVa.length + 4) }

/-! ## What the page should hold -/

/-- The string `s` and its terminator are at `a`. -/
def StrAt (u : Mem) (a : Nat) (s : Bytes) : Prop := ∀ i ≤ s.length, u (a + i) = s.getD i 0

/-- The words `ws` are at `a`. -/
def VecAt (u : Mem) : Nat → List Nat → Prop
  | _, [] => True
  | a, w :: ws => u.r32 a = w ∧ VecAt u (a + 4) ws

/-- The auxiliary values as pairs, without the terminator. -/
def auxPairs (lr : LoadResult) (atRandom : Nat) : List (Nat × Nat) :=
  (if lr.dynamic then
    [(3, lr.phdrVa), (4, lr.phent), (5, lr.phnum), (9, lr.appEntry), (7, lr.interpBase),
      (11, 0), (12, 0), (13, 0), (14, 0), (23, 0)]
  else []) ++ [(6, 4096), (25, atRandom)]

/-- The vector at the stack pointer. -/
def stackWords (argvVa envpVa : List Nat) (lr : LoadResult) (atRandom : Nat) : List Nat :=
  argvVa.length :: argvVa ++ 0 :: envpVa ++ 0 :: auxv lr atRandom

/-- The bytes strings take, terminators included. -/
def stringBytes (ss : List Bytes) : Nat := (ss.map fun s => s.length + 1).sum

/-- The address range of a string. -/
def strRegion (p : Nat × Bytes) : Nat × Nat := (p.1, p.2.length + 1)

/-- Every range the stack is made of, as start and length. -/
def stackRegions (vec atRandom : Nat) (argvVa envpVa : List Nat) (argv envp : List Bytes)
    (lr : LoadResult) : List (Nat × Nat) :=
  (vec, 4 * (stackWords argvVa envpVa lr atRandom).length) :: (atRandom, 16) ::
    ((argvVa.zip argv).map strRegion ++ (envpVa.zip envp).map strRegion)

/-- Two ranges share no byte. -/
def Apart (a b : Nat × Nat) : Prop := a.1 + a.2 ≤ b.1 ∨ b.1 + b.2 ≤ a.1

/-- The stack at `vec` with its strings and random bytes at the given addresses. -/
structure StackPlaced (u : Mem) (pageLo vec : Nat) (argv envp : List Bytes) (lr : LoadResult)
    (argvVa envpVa : List Nat) (atRandom : Nat) : Prop where
  aligned : vec % 16 = 0
  argvLen : argvVa.length = argv.length
  envpLen : envpVa.length = envp.length
  vector : VecAt u vec (stackWords argvVa envpVa lr atRandom)
  strings : ∀ p ∈ argvVa.zip argv ++ envpVa.zip envp, StrAt u p.1 p.2
  random : ∀ i < 16, u (atRandom + i) = UInt8.ofNat (0xA5 + i)
  apart : (stackRegions vec atRandom argvVa envpVa argv envp lr).Pairwise Apart
  inside : ∀ r ∈ stackRegions vec atRandom argvVa envpVa argv envp lr,
    pageLo ≤ r.1 ∧ r.1 + r.2 ≤ pageLo + 4096
  back : readStack u vec = ⟨argv.length, argv, 0, envp, auxPairs lr atRandom⟩

def StackOk (u : Mem) (pageLo vec : Nat) (argv envp : List Bytes) (lr : LoadResult) : Prop :=
  ∃ argvVa envpVa atRandom, StackPlaced u pageLo vec argv envp lr argvVa envpVa atRandom

/-- The fields are `uint32_t`. -/
structure LoadResult.InRange (lr : LoadResult) : Prop where
  phdrVa : lr.phdrVa < 4294967296
  phent : lr.phent < 4294967296
  phnum : lr.phnum < 4294967296
  appEntry : lr.appEntry < 4294967296
  interpBase : lr.interpBase < 4294967296

/-- One past the last byte of the stack page: `stack_top`, where `0` stands for the end of the
    address space. -/
def stackLimit (stackTop : Nat) : Nat := if stackTop = 0 then 4294967296 else stackTop

/-! ## The reader on a well-formed page -/

variable {u : Mem}

theorem readCstr_of_strAt :
    ∀ {a fuel : Nat}, StrAt u a s → 0 ∉ s → s.length < fuel → readCstr u fuel a = s := by
  induction s with
  | nil =>
    intro a fuel h _ hf
    obtain _ | fuel := fuel
    · omega
    have h0 : u a = 0 := h 0 (by simp)
    rw [readCstr, if_pos h0]
  | cons c s ih => ?_
  intro a fuel h h0 hf
  obtain _ | fuel := fuel
  · omega
  have hc : u a = c := h 0 (by simp)
  have hne : c ≠ 0 := fun hc => h0 (by simp [hc])
  have hrest : StrAt u (a + 1) s := fun i hi => by
    have := h (i + 1) (by simp; omega)
    rwa [getD_cons_succ, ← Nat.add_assoc, Nat.add_right_comm] at this
  rw [readCstr, hc, if_neg hne, ih hrest (fun hm => h0 (mem_cons_of_mem _ hm)) (by simp at hf; omega)]

theorem vecAt_append {xs ys : List Nat} :
    ∀ {a : Nat}, VecAt u a (xs ++ ys) ↔ VecAt u a xs ∧ VecAt u (a + 4 * xs.length) ys := by
  induction xs with
  | nil => intro a; simp [VecAt]
  | cons x xs ih =>
    intro a
    have hadd : a + 4 * (xs.length + 1) = a + 4 + 4 * xs.length := by omega
    rw [cons_append, VecAt, VecAt, ih, length_cons, hadd, and_assoc]

theorem readWords_of_vecAt : ∀ {a : Nat}, VecAt u a ws → readWords u ws.length a = ws := by
  induction ws with
  | nil => intro a _; rfl
  | cons w ws ih => intro a h; rw [length_cons, readWords, h.1, ih h.2]

theorem readPtrs_of_vecAt {ps : List Nat} :
    ∀ {a fuel : Nat}, VecAt u a (ps ++ [0]) → (∀ p ∈ ps, p ≠ 0) → ps.length < fuel →
      readPtrs u fuel a = ps := by
  induction ps with
  | nil =>
    intro a fuel h _ hf
    obtain _ | fuel := fuel
    · omega
    rw [readPtrs, if_pos h.1]
  | cons p ps ih => ?_
  intro a fuel h h0 hf
  obtain _ | fuel := fuel
  · omega
  rw [readPtrs, h.1, if_neg (h0 p mem_cons_self), ih h.2 (forall_mem_cons.1 h0).2 (by simp at hf; omega)]

theorem readAux_of_vecAt {ps : List (Nat × Nat)} :
    ∀ {a fuel : Nat}, VecAt u a (ps.flatMap (fun p => [p.1, p.2]) ++ [0, 0]) → (∀ p ∈ ps, p.1 ≠ 0) →
      ps.length < fuel → readAux u fuel a = ps := by
  induction ps with
  | nil =>
    intro a fuel h _ hf
    obtain _ | fuel := fuel
    · omega
    rw [readAux, if_pos h.1]
  | cons p ps ih => ?_
  intro a fuel h h0 hf
  obtain _ | fuel := fuel
  · omega
  obtain ⟨h1, h2, h3⟩ := h
  rw [readAux, h1, h2, if_neg (h0 p mem_cons_self), ih h3 (forall_mem_cons.1 h0).2 (by simp at hf; omega)]

theorem auxv_eq (lr : LoadResult) (r : Nat) :
    auxv lr r = (auxPairs lr r).flatMap (fun p => [p.1, p.2]) ++ [0, 0] := by
  unfold auxv auxPairs
  split <;> rfl

theorem auxPairs_ne_zero (lr : LoadResult) (r : Nat) : ∀ p ∈ auxPairs lr r, p.1 ≠ 0 := by
  unfold auxPairs
  split <;> simp

variable {lr : LoadResult}

/-- The reader on a page that holds the vector and the strings it points to. -/
theorem readStack_eq {vec atRandom : Nat}
    {argvVa envpVa : List Nat} (hv : VecAt u vec (stackWords argvVa envpVa lr atRandom))
    (ha : argvVa.map (readCstr u 4096) = argv) (he : envpVa.map (readCstr u 4096) = envp)
    (hne : ∀ p ∈ envpVa, p ≠ 0) (hlen : envpVa.length < 1024) :
    readStack u vec = ⟨argv.length, argv, 0, envp, auxPairs lr atRandom⟩ := by
  have hsplit : stackWords argvVa envpVa lr atRandom
      = [argvVa.length] ++ (argvVa ++ ([0] ++ ((envpVa ++ [0]) ++ auxv lr atRandom))) := by
    simp [stackWords]
  rw [hsplit, vecAt_append, vecAt_append, vecAt_append, vecAt_append] at hv
  obtain ⟨⟨hargc, _⟩, hargv, ⟨hend, _⟩, henvp, haux⟩ := hv
  have hlenA : argv.length = argvVa.length := by rw [← ha, length_map]
  simp only [length_singleton, length_append, Nat.mul_one, Nat.mul_add, ← Nat.add_assoc]
    at hargv hend henvp haux
  have hptrs := readPtrs_of_vecAt henvp hne hlen
  have hauxs := haux
  rw [auxv_eq] at hauxs
  have hshort : (auxPairs lr atRandom).length < 1024 := by
    unfold auxPairs
    split <;> simp
  have hpairs := readAux_of_vecAt hauxs (auxPairs_ne_zero lr atRandom) hshort
  simp only [readStack, hargc, readWords_of_vecAt hargv, hend, hptrs, hpairs, ha, he, hlenA]

/-! ## Writing the page -/

theorem r32_userView {a : Nat} (h : lo ≤ a) : (userView m pa lo).r32 a = m.r32 (pa + (a - lo)) := by
  have h1 : pa + (a + 1 - lo) = pa + (a - lo) + 1 := by omega
  have h2 : pa + (a + 2 - lo) = pa + (a - lo) + 2 := by omega
  have h3 : pa + (a + 3 - lo) = pa + (a - lo) + 3 := by omega
  simp only [Mem.r32, userView, h1, h2, h3]

variable {pa lo : Nat}

theorem vecAt_userView :
    ∀ {a : Nat}, lo ≤ a → (VecAt (userView m pa lo) a ws ↔ VecAt m (pa + (a - lo)) ws) := by
  induction ws with
  | nil => intro a _; exact Iff.rfl
  | cons w ws ih =>
    intro a h
    have hadd : pa + (a + 4 - lo) = pa + (a - lo) + 4 := by omega
    rw [VecAt, VecAt, r32_userView h, ih (by omega), hadd]

theorem vecAt_writeWords :
    ∀ {a : Nat} {m : Mem}, (∀ w ∈ ws, w < 4294967296) → VecAt (writeWords a ws m) a ws := by
  induction ws with
  | nil => intro a m _; trivial
  | cons w ws ih => ?_
  intro a m h
  refine ⟨?_, ih (forall_mem_cons.1 h).2⟩
  have hkeep : (writeWords (a + 4) ws (m.w32 a w)).r32 a = (m.w32 a w).r32 a :=
    Mem.r32_congr fun i hi => writeWords_of_not_mem ws _ _ _ (by omega)
  rw [writeWords, hkeep, Mem.r32_w32_self (h w mem_cons_self)]

/-- Bytes written at `sp` show at `sp` and nowhere else. -/
theorem userView_write (bs : Bytes) (hsp : lo ≤ sp) (hx : lo ≤ x) :
    userView (m.write (pa + (sp - lo)) bs) pa lo x
      = if sp ≤ x ∧ x < sp + bs.length then bs.getD (x - sp) 0 else userView m pa lo x := by
  unfold userView
  split
  · next h =>
    have hidx : pa + (x - lo) - (pa + (sp - lo)) = x - sp := by omega
    have hlt : x - sp < bs.length := by omega
    rw [Mem.write, if_pos (by omega), hidx, getD_eq_getElem?_getD, getElem?_eq_getElem hlt,
      Option.getD_some, Option.getD_some]
  next h => exact Mem.write_of_not_mem (by omega)

theorem getD_append_zero (s : Bytes) {i : Nat} (h : i ≤ s.length) : (s ++ [0]).getD i 0 = s.getD i 0 := by
  rcases Nat.lt_or_eq_of_le h with hlt | rfl
  · rw [getD_eq_getElem?_getD, getD_eq_getElem?_getD, getElem?_append_left hlt]
  · simp

/-- Where strings pushed one after the other below `top` come to lie. -/
def positions : Nat → List Bytes → List Nat
  | _, [] => []
  | top, s :: ss => (top - (s.length + 1)) :: positions (top - (s.length + 1)) ss

theorem stringBytes_cons (s : Bytes) (ss : List Bytes) :
    stringBytes (s :: ss) = s.length + 1 + stringBytes ss := by simp [stringBytes]

theorem pushStrings_cons {sp' : Nat} {vas : List Nat}
    {m' : Mem} (h : pushStrings pa lo (s :: ss) sp m = (some (sp', vas), m')) :
    lo ≤ sub32 sp (s.length + 1) ∧ ∃ vas1, vas = sub32 sp (s.length + 1) :: vas1 ∧
      pushStrings pa lo ss (sub32 sp (s.length + 1))
        (m.write (pa + (sub32 sp (s.length + 1) - lo)) (s ++ [0])) = (some (sp', vas1), m') := by
  rw [pushStrings] at h
  split at h
  · simp at h
  rename_i hge
  generalize pushStrings _ _ _ _ _ = r at h ⊢
  obtain ⟨o, m1⟩ := r
  simp only [Prod.mk.injEq, Option.map_eq_some_iff] at h
  obtain ⟨⟨⟨sp1, vas1⟩, rfl, rfl, rfl⟩, rfl⟩ := h
  exact ⟨Nat.le_of_not_lt hge, vas1, rfl, rfl⟩

/-- The strings that fit below `top` are pushed there; what lies above `top` is left alone. -/
theorem pushStrings_fits (ss : List Bytes) :
    ∀ {top sp sp' : Nat} {vas : List Nat} {m m' : Mem}, sp = top % 4294967296 → top ≤ 4294967296 →
      lo ≤ top → stringBytes ss ≤ top → pushStrings pa lo ss sp m = (some (sp', vas), m') →
      sp' = (top - stringBytes ss) % 4294967296 ∧ vas = positions top ss ∧
        lo ≤ top - stringBytes ss ∧ (∀ x, top ≤ x → userView m' pa lo x = userView m pa lo x) ∧
        ∀ p ∈ vas.zip ss, StrAt (userView m' pa lo) p.1 p.2 := by
  induction ss with
  | nil =>
    intro top sp sp' vas m m' hsp htop hlo _ h
    obtain ⟨⟨rfl, rfl⟩, rfl⟩ := h
    exact ⟨hsp, rfl, hlo, fun _ _ => rfl, by simp⟩
  | cons s ss ih => ?_
  intro top sp sp' vas m m' hsp htop hlo hfit h
  rw [stringBytes_cons] at hfit ⊢
  have hsub : sub32 sp (s.length + 1) = (top - (s.length + 1)) % 4294967296 := by
    unfold sub32
    omega
  obtain ⟨hge, vas1, rfl, hr⟩ := pushStrings_cons h
  rw [hsub] at hge hr ⊢
  have heq : (top - (s.length + 1)) % 4294967296 = top - (s.length + 1) := by omega
  rw [heq] at hr ⊢
  obtain ⟨h1, h2, h3, h4, h5⟩ := ih heq.symm (by omega) (by omega) (by omega) hr
  refine ⟨?_, by rw [h2, positions], by omega, fun x hx => ?_, ?_⟩
  · rw [h1, Nat.sub_sub]
  · rw [h4 x (by omega), userView_write _ (by omega) (by omega), if_neg]
    simp only [length_append, length_singleton]
    omega
  rw [zip_cons_cons]
  refine forall_mem_cons.2 ⟨fun i hi => ?_, h5⟩
  simp only at hi ⊢
  rw [h4 _ (by omega), userView_write _ (by omega) (by omega), if_pos, Nat.add_sub_cancel_left,
    getD_append_zero s hi]
  simp only [length_append, length_singleton]
  omega

/-- The converse: strings that all come to lie inside the page did fit. -/
theorem stringBytes_le_of_inside (_ : lo + 4096 ≤ 4294967296) (ss : List Bytes) :
    ∀ {top sp sp' : Nat} {vas : List Nat} {m m' : Mem}, sp = top % 4294967296 → top ≤ 4294967296 →
      lo ≤ top → (∀ s ∈ ss, s.length < 4294967296) → pushStrings pa lo ss sp m = (some (sp', vas), m') →
      (∀ p ∈ vas.zip ss, p.1 + (p.2.length + 1) ≤ lo + 4096) → stringBytes ss ≤ top := by
  induction ss with
  | nil => intros; simp [stringBytes]
  | cons s ss ih => ?_
  intro top sp sp' vas m m' hsp htop hlo hlen h hin
  obtain ⟨hge, vas1, rfl, hr⟩ := pushStrings_cons h
  have hfirst := hin _ mem_cons_self
  simp only at hfirst
  -- a string that wraps around address 0 ends past the page
  have hle : s.length + 1 ≤ top := by
    unfold sub32 at hfirst
    omega
  have hsub : sub32 sp (s.length + 1) = (top - (s.length + 1)) % 4294967296 := by
    unfold sub32
    omega
  have := ih hsub (by omega) (by omega) (forall_mem_cons.1 hlen).2 hr (forall_mem_cons.1 hin).2
  rw [stringBytes_cons]
  omega

theorem pushStrings_vas (ss : List Bytes) : ∀ {sp sp' : Nat} {vas : List Nat} {m m' : Mem},
      pushStrings pa lo ss sp m = (some (sp', vas), m') →
      vas.length = ss.length ∧ ∀ va ∈ vas, va < 4294967296 := by
  induction ss with
  | nil =>
    intro sp sp' vas m m' h
    obtain ⟨⟨rfl, rfl⟩, rfl⟩ := h
    exact ⟨rfl, by simp⟩
  | cons s ss ih => ?_
  intro sp sp' vas m m' h
  obtain ⟨_, vas1, rfl, hr⟩ := pushStrings_cons h
  obtain ⟨hl, hb⟩ := ih hr
  exact ⟨by simp [hl], forall_mem_cons.2 ⟨Nat.mod_lt _ (by omega), hb⟩⟩

/-- The ranges of pushed strings: one below the other, all in `[top - n, top)`. -/
theorem positions_regions (ss : List Bytes) : ∀ {top : Nat}, stringBytes ss ≤ top →
    (((positions top ss).zip ss).map strRegion).Pairwise (fun a b => b.1 + b.2 ≤ a.1) ∧
      ∀ r ∈ ((positions top ss).zip ss).map strRegion, top - stringBytes ss ≤ r.1 ∧ r.1 + r.2 ≤ top := by
  induction ss with
  | nil => intro top _; simp [positions]
  | cons s ss ih => ?_
  intro top h
  rw [stringBytes_cons] at h ⊢
  obtain ⟨hp, hb⟩ := ih (show stringBytes ss ≤ top - (s.length + 1) by omega)
  rw [positions, zip_cons_cons, map_cons]
  refine ⟨pairwise_cons.2 ⟨fun r hr => (hb r hr).2, hp⟩, forall_mem_cons.2 ⟨?_, ?_⟩⟩
  · simp only [strRegion]
    omega
  intro r hr
  have := hb r hr
  omega

theorem positions_ge (ss : List Bytes) : ∀ {top : Nat}, ∀ va ∈ positions top ss,
    top - stringBytes ss ≤ va := by
  induction ss with
  | nil => intro top; simp [positions]
  | cons s ss ih => ?_
  intro top
  rw [positions, stringBytes_cons]
  refine forall_mem_cons.2 ⟨by omega, fun va hva => ?_⟩
  have := ih va hva
  omega

theorem map_readCstr : ∀ {vas : List Nat}, vas.length = ss.length →
    (∀ p ∈ vas.zip ss, StrAt u p.1 p.2 ∧ 0 ∉ p.2 ∧ p.2.length < 4096) →
    vas.map (readCstr u 4096) = ss := by
  induction ss with
  | nil => intro vas h _; rw [length_eq_zero_iff.1 h, map_nil]
  | cons s ss ih => ?_
  intro vas h hp
  cases vas with
  | nil => simp at h
  | cons va vas => ?_
  obtain ⟨h1, h2, h3⟩ := hp _ mem_cons_self
  rw [map_cons, readCstr_of_strAt h1 h2 h3, ih (by simpa using h) fun p hp' => hp p (mem_cons_of_mem _ hp')]

/-! ## The whole page -/

/-- What a successful `setup_user_stack` has done. -/
structure StackBuilt (m : Mm) (pa lo stackTop : Nat) (argv envp : List Bytes) (lr : LoadResult)
    (vec : Nat) (mem : Mem) (sp sp' : Nat) (avs evs : List Nat) (mem₁ mem₂ : Mem) : Prop where
  argvLen : argv.length < 64
  envpLen : envp.length < 64
  pushArgv : pushStrings pa lo argv.reverse stackTop m.mem = (some (sp, avs), mem₁)
  pushEnvp : pushStrings pa lo envp.reverse sp mem₁ = (some (sp', evs), mem₂)
  random : lo ≤ sub32 sp' 16
  room : lo + (stackWords avs.reverse evs.reverse lr (sub32 sp' 16)).length * 4 ≤ sub32 sp' 16
  place : vec = (sub32 sp' 16 - (stackWords avs.reverse evs.reverse lr (sub32 sp' 16)).length * 4)
    / 16 * 16
  low : lo ≤ vec
  stored : mem = writeWords (pa + (vec - lo)) (stackWords avs.reverse evs.reverse lr (sub32 sp' 16))
    (mem₂.write (pa + (sub32 sp' 16 - lo)) ((List.range 16).map fun i => UInt8.ofNat (0xA5 + i)))

theorem pushVector_eq (m : Mm) (pa lo sp : Nat) (avs evs : List Nat) (lr : LoadResult) :
    pushVector m pa lo sp avs evs lr = let r := sub32 sp 16
      let ws := stackWords avs evs lr r
      let mem := m.mem.write (pa + (r - lo)) ((range 16).map fun i => UInt8.ofNat (0xA5 + i))
      if r < lo then (0, m)
      else if r < lo + ws.length * 4 then (0, { m with mem := mem })
      else if (r - ws.length * 4) / 16 * 16 < lo then (0, { m with mem := mem })
      else ((r - ws.length * 4) / 16 * 16,
        { m with mem := writeWords (pa + ((r - ws.length * 4) / 16 * 16 - lo)) ws mem }) := rfl

theorem setupUserStack_built {m : Mm} {l1 : Nat}
    (h : (setupUserStack m l1 stackTop argv envp lr).1 ≠ 0) : ∃ sp sp' avs evs mem₁ mem₂,
      StackBuilt m (vmWalk m l1 (pageDown (sub32 stackTop 1))) (pageDown (sub32 stackTop 1)) stackTop
        argv envp lr (setupUserStack m l1 stackTop argv envp lr).1
        (setupUserStack m l1 stackTop argv envp lr).2.mem sp sp' avs evs mem₁ mem₂ := by
  simp only [setupUserStack] at h ⊢
  generalize pageDown (sub32 stackTop 1) = lo at h ⊢
  generalize vmWalk m l1 lo = pa at h ⊢
  by_cases hpa : pa = 0
  · rw [if_pos hpa] at h
    exact absurd rfl h
  by_cases hlen : argv.length ≥ 64 ∨ envp.length ≥ 64
  · rw [if_neg hpa, if_pos hlen] at h
    exact absurd rfl h
  rw [if_neg hpa, if_neg hlen] at h ⊢
  generalize hr : pushStrings pa lo argv.reverse stackTop m.mem = r at h ⊢
  obtain ⟨o, mem₁⟩ := r
  cases o with
  | none => exact absurd rfl h
  | some t => ?_
  obtain ⟨sp, avs⟩ := t
  simp only at h ⊢
  generalize hs : pushStrings pa lo envp.reverse sp mem₁ = r at h ⊢
  obtain ⟨o, mem₂⟩ := r
  cases o with
  | none => exact absurd rfl h
  | some t => ?_
  obtain ⟨sp', evs⟩ := t
  refine ⟨sp, sp', avs, evs, mem₁, mem₂, ?_⟩
  simp only [pushVector_eq] at h ⊢
  by_cases h1 : sub32 sp' 16 < lo
  · rw [if_pos h1] at h
    exact absurd rfl h
  rw [if_neg h1] at h ⊢
  generalize hw : stackWords avs.reverse evs.reverse lr (sub32 sp' 16) = ws at h ⊢
  by_cases h2 : sub32 sp' 16 < lo + ws.length * 4
  · rw [if_pos h2] at h
    exact absurd rfl h
  rw [if_neg h2] at h ⊢
  by_cases h3 : (sub32 sp' 16 - ws.length * 4) / 16 * 16 < lo
  · rw [if_pos h3] at h
    exact absurd rfl h
  rw [if_neg h3]
  exact ⟨by omega, by omega, hr, hs, by omega, by rw [hw]; omega, by rw [hw], by omega, by rw [hw]⟩

theorem stackLimit_spec (h : stackTop < 4294967296) :
    stackTop = stackLimit stackTop % 4294967296 ∧ stackLimit stackTop ≤ 4294967296 ∧
      pageDown (sub32 stackTop 1) ≤ stackLimit stackTop ∧
      stackLimit stackTop ≤ pageDown (sub32 stackTop 1) + 4096 ∧
      pageDown (sub32 stackTop 1) + 4096 ≤ 4294967296 := by
  unfold stackLimit pageDown sub32
  split <;> omega

theorem stringBytes_reverse (ss : List Bytes) : stringBytes ss.reverse = stringBytes ss := by
  rw [stringBytes, map_reverse, sum_reverse, stringBytes]

theorem zip_reverse_left {α β : Type} {xs : List α} {ys : List β} (h : xs.length = ys.length) :
    xs.reverse.zip ys = (xs.zip ys.reverse).reverse := by
  rw [zip_eq_zipWith, zip_eq_zipWith, reverse_zipWith (by simpa using h), reverse_reverse]

theorem auxv_lt (hlr : lr.InRange) {r : Nat} (hr : r < 4294967296) : ∀ w ∈ auxv lr r, w < 4294967296 := by
  unfold auxv
  have h := hlr
  split
  · simp [h.phdrVa, h.phent, h.phnum, h.appEntry, h.interpBase, hr]
  · simp [hr]

section Built

variable {m : Mm} {pa lo stackTop vec sp sp' : Nat} {argv envp : List Bytes} {lr : LoadResult}
  {mem mem₁ mem₂ : Mem} {avs evs : List Nat}

variable (b : StackBuilt m pa lo stackTop argv envp lr vec mem sp sp' avs evs mem₁ mem₂)
include b

/-- The vector is where the stack pointer says, whatever the strings have done. -/
theorem StackBuilt.vector (hlr : lr.InRange) :
    VecAt (userView mem pa lo) vec (stackWords avs.reverse evs.reverse lr (sub32 sp' 16)) := by
  obtain ⟨hal, hav⟩ := pushStrings_vas _ b.pushArgv
  obtain ⟨hel, hev⟩ := pushStrings_vas _ b.pushEnvp
  have hargc := b.argvLen
  rw [vecAt_userView b.low, b.stored]
  refine vecAt_writeWords fun w hw => ?_
  have hr : sub32 sp' 16 < 4294967296 := Nat.mod_lt _ (by omega)
  simp only [stackWords, cons_append, append_assoc, mem_cons, mem_append, mem_reverse, length_reverse] at hw
  rcases hw with rfl | hw | rfl | hw | rfl | hw
  · rw [hal, length_reverse]
    omega
  · exact hav w hw
  · omega
  · exact hev w hw
  · omega
  exact auxv_lt hlr hr w hw

/-- The vector ends below the random bytes, so writing it leaves them and the strings alone. -/
theorem StackBuilt.above (hx : sub32 sp' 16 ≤ x) :
    userView mem pa lo x = if x < sub32 sp' 16 + 16 then UInt8.ofNat (0xA5 + (x - sub32 sp' 16))
      else userView mem₂ pa lo x := by
  have hroom := b.room
  have hplace := b.place
  have hskip : userView mem pa lo x = userView (mem₂.write (pa + (sub32 sp' 16 - lo))
      ((range 16).map fun i => UInt8.ofNat (0xA5 + i))) pa lo x := by
    rw [b.stored]
    exact writeWords_of_not_mem _ _ _ _ (by omega)
  rw [hskip, userView_write _ b.random (by omega)]
  simp only [length_map, length_range]
  by_cases h : x < sub32 sp' 16 + 16
  · have hlt : x - sub32 sp' 16 < 16 := by omega
    rw [if_pos ⟨hx, h⟩, if_pos h, getD_eq_getElem?_getD]
    simp [hlt]
  rw [if_neg (fun hh => h hh.2), if_neg h]

/-- Pushed strings: `vas` are the addresses of `ss`, between `bot` and `top`. -/
structure Pushed (u : Mem) (vas : List Nat) (ss : List Bytes) (bot top : Nat) : Prop where
  len : vas.length = ss.length
  str : ∀ p ∈ vas.zip ss, StrAt u p.1 p.2
  reads : vas.map (readCstr u 4096) = ss
  apart : ((vas.zip ss).map strRegion).Pairwise Apart
  inside : ∀ r ∈ (vas.zip ss).map strRegion, bot ≤ r.1 ∧ r.1 + r.2 ≤ top
  ge : ∀ va ∈ vas, bot ≤ va

omit b in
/-- Strings that fit are placed by `pushStrings`, as long as nothing is stored above them later. -/
theorem pushStrings_pushed {ss : List Bytes} {m m' : Mem} {top : Nat} {vas : List Nat}
    (h : pushStrings pa lo ss.reverse sp m = (some (sp', vas), m')) (hsp : sp = top % 4294967296)
    (hle : top ≤ 4294967296) (hlo : lo ≤ top) (hhi : top ≤ lo + 4096) (hfit : stringBytes ss ≤ top)
    (hnul : ∀ s ∈ ss, 0 ∉ s) :
    sp' = (top - stringBytes ss) % 4294967296 ∧ lo ≤ top - stringBytes ss ∧
      (∀ x, top ≤ x → userView m' pa lo x = userView m pa lo x) ∧
      ∀ {u : Mem}, (∀ x, top - stringBytes ss ≤ x → u x = userView m' pa lo x) →
        Pushed u vas.reverse ss (top - stringBytes ss) top := by
  obtain ⟨hlen, -⟩ := pushStrings_vas _ h
  rw [length_reverse] at hlen
  rw [← stringBytes_reverse ss] at hfit ⊢
  obtain ⟨h1, hvas, h2, h3, hstr⟩ := pushStrings_fits _ hsp hle hlo hfit h
  obtain ⟨hap, hin⟩ := positions_regions _ hfit
  have hge := @positions_ge ss.reverse top
  rw [← hvas] at hap hin hge
  have hzip := zip_reverse_left hlen
  refine ⟨h1, h2, h3, fun hkeep => ?_⟩
  have hreg : ∀ p ∈ vas.reverse.zip ss, StrAt _ p.1 p.2 ∧ p.2.length < 4096 := fun p hp => by
    rw [hzip, mem_reverse] at hp
    have hr := hin _ (mem_map_of_mem hp)
    simp only [strRegion] at hr
    exact ⟨fun i hi => (hkeep _ (by omega)).trans (hstr p hp i hi), by omega⟩
  refine ⟨by simpa using hlen, fun p hp => (hreg p hp).1, ?_, ?_, fun r hr => hin r ?_,
    fun va hva => hge va (mem_reverse.1 hva)⟩
  · exact map_readCstr (by simpa using hlen) fun p hp =>
      ⟨(hreg p hp).1, hnul _ (of_mem_zip hp).2, (hreg p hp).2⟩
  · rw [hzip, map_reverse]
    exact pairwise_reverse.2 (hap.imp .inl)
  rwa [hzip, map_reverse, mem_reverse] at hr

/-- Strings, random bytes and vector that fit are placed as they should be. -/
theorem StackBuilt.placed (htop : stackTop = top % 4294967296) (hle : top ≤ 4294967296) (hlo : lo ≤ top)
    (hhi : top ≤ lo + 4096) (hlr : lr.InRange) (hnul : ∀ s ∈ argv ++ envp, 0 ∉ s)
    (hfit : stringBytes argv + stringBytes envp + 16 ≤ top) :
    StackPlaced (userView mem pa lo) lo vec argv envp lr avs.reverse evs.reverse (sub32 sp' 16) := by
  obtain ⟨hsp, hlo1, -, hA⟩ := pushStrings_pushed b.pushArgv htop hle hlo hhi (by omega)
    fun s hs => hnul s (mem_append_left _ hs)
  obtain ⟨hsp', hlo2, hup2, hE⟩ := pushStrings_pushed b.pushEnvp hsp (by omega) hlo1 (by omega)
    (by omega) fun s hs => hnul s (mem_append_right _ hs)
  have hr : sub32 sp' 16 = top - stringBytes argv - stringBytes envp - 16 := by
    rw [hsp']
    unfold sub32
    omega
  have hroom := b.room
  have hplace := b.place
  have hlow := b.low
  have hvector := b.vector hlr
  have hargc := b.envpLen
  -- what was pushed is still there when the page is complete
  have hkeepE : ∀ x, top - stringBytes argv - stringBytes envp ≤ x →
      userView mem pa lo x = userView mem₂ pa lo x := fun x hx => by
    rw [b.above (by omega), if_neg (by omega)]
  have pE := hE hkeepE
  have pA := hA fun x hx => (hkeepE x (by omega)).trans (hup2 x hx)
  refine ⟨by omega, pA.len, pE.len, hvector, ?_, fun i hi => ?_, ?_, ?_,
    readStack_eq hvector pA.reads pE.reads (fun p hp => ?_) (by rw [pE.len]; omega)⟩
  · intro p hp
    exact (mem_append.1 hp).elim (pA.str p) (pE.str p)
  · rw [b.above (by omega), if_pos (by omega), Nat.add_sub_cancel_left]
  · refine pairwise_cons.2 ⟨fun r hr => .inl ?_, pairwise_cons.2 ⟨fun r hr => .inl ?_,
      pairwise_append.2 ⟨pA.apart, pE.apart, fun a ha e he => .inr ?_⟩⟩⟩
    · simp only [mem_cons, mem_append] at hr
      rcases hr with rfl | hr | hr
      · simp only
        omega
      · have := pA.inside r hr
        simp only
        omega
      have := pE.inside r hr
      simp only
      omega
    · rcases mem_append.1 hr with hr | hr
      · have := pA.inside r hr
        simp only
        omega
      have := pE.inside r hr
      simp only
      omega
    have h1 := pA.inside a ha
    have h2 := pE.inside e he
    omega
  · refine forall_mem_cons.2 ⟨⟨hlow, by simp only; omega⟩, forall_mem_cons.2 ⟨?_, fun r hr => ?_⟩⟩
    · simp only
      omega
    rcases mem_append.1 hr with hr | hr
    · have := pA.inside r hr
      omega
    have := pE.inside r hr
    omega
  have := pE.ge p hp
  omega

omit b in
theorem vecAt_unique {xs : List Nat} : ∀ {a : Nat} {ys : List Nat}, VecAt u a xs →
    VecAt u a ys → xs.length = ys.length → xs = ys := by
  induction xs with
  | nil => intro a ys _ _ h; exact (length_eq_zero_iff.1 h.symm).symm
  | cons x xs ih => ?_
  intro a ys hx hy h
  cases ys with
  | nil => simp at h
  | cons y ys => rw [← hx.1, ← hy.1, ih hx.2 hy.2 (by simpa using h)]

omit b in
theorem auxv_length (lr : LoadResult) (r r' : Nat) : (auxv lr r).length = (auxv lr r').length := by
  unfold auxv
  split <;> rfl

omit b in
theorem auxv_inj {r r' : Nat} (h : auxv lr r = auxv lr r') : r = r' := by
  have := append_cancel_left h
  simpa using this

omit b in
/-- The words of the vector determine the addresses in it. -/
theorem stackWords_inj {avs avs' evs evs' : List Nat} {r r' : Nat}
    (ha : avs.length = avs'.length) (he : evs.length = evs'.length)
    (h : stackWords avs evs lr r = stackWords avs' evs' lr r') : avs = avs' ∧ evs = evs' ∧ r = r' := by
  simp only [stackWords, cons_append, append_assoc, cons.injEq] at h
  obtain ⟨hav, hrest⟩ := append_inj h.2 ha
  obtain ⟨hev, haux⟩ := append_inj (cons.inj hrest).2 he
  exact ⟨hav, hev, auxv_inj (cons.inj haux).2⟩

/-- The other way round: a stack whose parts all lie in the page has fitted. -/
theorem StackBuilt.fits (htop : stackTop = top % 4294967296) (hle : top ≤ 4294967296) (hlo : lo ≤ top)
    (hpage : lo + 4096 ≤ 4294967296) (hlr : lr.InRange)
    (hlen : ∀ s ∈ argv ++ envp, s.length < 4294967296)
    (h : StackOk (userView mem pa lo) lo vec argv envp lr) :
    stringBytes argv + stringBytes envp + 16 ≤ top := by
  obtain ⟨argvVa, envpVa, atRandom, hp⟩ := h
  obtain ⟨hal, -⟩ := pushStrings_vas _ b.pushArgv
  obtain ⟨hel, -⟩ := pushStrings_vas _ b.pushEnvp
  rw [length_reverse] at hal hel
  have hlenA : argvVa.length = avs.reverse.length := by rw [hp.argvLen, length_reverse, hal]
  have hlenE : envpVa.length = evs.reverse.length := by rw [hp.envpLen, length_reverse, hel]
  -- the addresses the reader finds are the ones that were pushed
  have hlenW : (stackWords argvVa envpVa lr atRandom).length
      = (stackWords avs.reverse evs.reverse lr (sub32 sp' 16)).length := by
    have haux := auxv_length lr atRandom (sub32 sp' 16)
    simp only [stackWords, cons_append, length_append, length_cons] at *
    omega
  obtain ⟨hav, hev, hrd⟩ := stackWords_inj hlenA hlenE (vecAt_unique hp.vector (b.vector hlr) hlenW)
  have hin := hp.inside
  rw [hav, hev, hrd] at hin
  rw [stackRegions, zip_reverse_left hal, zip_reverse_left hel] at hin
  have hA : stringBytes argv.reverse ≤ top := by
    refine stringBytes_le_of_inside hpage _ htop hle hlo
      (fun s hs => hlen s (mem_append_left _ (mem_reverse.1 hs))) b.pushArgv fun p hp' => ?_
    exact (hin (strRegion p) (by
      simp only [mem_cons, mem_append, map_reverse, mem_reverse]
      exact .inr (.inr (.inl (mem_map_of_mem hp'))))).2
  obtain ⟨hsp, -, hlo1, -, -⟩ := pushStrings_fits _ htop hle hlo hA b.pushArgv
  rw [stringBytes_reverse] at hA hsp hlo1
  have hE : stringBytes envp.reverse ≤ top - stringBytes argv := by
    refine stringBytes_le_of_inside hpage _ hsp (by omega) hlo1
      (fun s hs => hlen s (mem_append_right _ (mem_reverse.1 hs))) b.pushEnvp fun p hp' => ?_
    exact (hin (strRegion p) (by
      simp only [mem_cons, mem_append, map_reverse, mem_reverse]
      exact .inr (.inr (.inr (mem_map_of_mem hp'))))).2
  obtain ⟨hsp', -, hlo2, -, -⟩ := pushStrings_fits _ hsp (by omega) hlo1 hE b.pushEnvp
  rw [stringBytes_reverse] at hE hsp' hlo2
  have hrand := (hin (sub32 sp' 16, 16) (mem_cons_of_mem _ mem_cons_self)).2
  unfold sub32 at hrand
  omega

end Built

/-- **The initial stack round trip**: when `setup_user_stack` succeeds, the page holds everything it
    was given, disjoint, inside the page and as the reader expects it, exactly when the strings and
    the random bytes fit below the top of the stack without wrapping around address `0`. -/
theorem setupUserStack_ok_iff (m : Mm) (l1 stackTop : Nat) (argv envp : List Bytes) (lr : LoadResult)
    (htop : stackTop < 4294967296) (hlr : lr.InRange)
    (hstr : ∀ s ∈ argv ++ envp, 0 ∉ s ∧ s.length < 4294967296)
    (hok : (setupUserStack m l1 stackTop argv envp lr).1 ≠ 0) :
    StackOk (userView (setupUserStack m l1 stackTop argv envp lr).2.mem
          (vmWalk m l1 (pageDown (sub32 stackTop 1))) (pageDown (sub32 stackTop 1)))
        (pageDown (sub32 stackTop 1)) (setupUserStack m l1 stackTop argv envp lr).1 argv envp lr ↔
      stringBytes argv + stringBytes envp + 16 ≤ stackLimit stackTop := by
  obtain ⟨sp, sp', avs, evs, mem₁, mem₂, b⟩ := setupUserStack_built hok
  obtain ⟨h1, h2, h3, h4, h5⟩ := stackLimit_spec htop
  constructor
  · intro h
    exact b.fits h1 h2 h3 h5 hlr (fun s hs => (hstr s hs).2) h
  · intro h
    exact ⟨_, _, _, b.placed h1 h2 h3 h4 hlr (fun s hs => (hstr s hs).1) h⟩

/-- One page at `va`, in frame `0x9000`, mapped by the table at `0x10000`. -/
def onePage (va : Nat) : Mm :=
  { mem := (Mem.w32 (fun _ => 0) (0x10000 + 4 * l1Index va) (l1Coarse 0x8000)).w32
      (0x8000 + 4 * l2Index va) (l2SmallUser 0x9000)
    pmm := ⟨0, 0, 0, fun _ => false⟩
    kerL1 := 0 }

theorem setupUserStack_ok_iff_sh :
    (setupUserStack (onePage 0x3FFFF000) 0x10000 userVaMax [[115, 104], [45, 99]] [[65, 61, 98]] {}).1
        = 0x3FFFFFB0 ∧
      StackOk (userView (setupUserStack (onePage 0x3FFFF000) 0x10000 userVaMax [[115, 104], [45, 99]]
          [[65, 61, 98]] {}).2.mem
          (vmWalk (onePage 0x3FFFF000) 0x10000 (pageDown (sub32 userVaMax 1)))
          (pageDown (sub32 userVaMax 1)))
        (pageDown (sub32 userVaMax 1))
        (setupUserStack (onePage 0x3FFFF000) 0x10000 userVaMax [[115, 104], [45, 99]] [[65, 61, 98]] {}).1
        [[115, 104], [45, 99]] [[65, 61, 98]] {} :=
  ⟨by decide +kernel,
    (setupUserStack_ok_iff (onePage 0x3FFFF000) 0x10000 userVaMax [[115, 104], [45, 99]] [[65, 61, 98]]
      {} (by decide) ⟨by decide, by decide, by decide, by decide, by decide⟩ (by decide)
      (by decide +kernel)).2 (by decide)⟩

/-- A long string on a low stack page: the stack pointer wraps around address `0`, passes every
    check, and the call succeeds with the string outside the page. -/
theorem setupUserStack_wraps :
    (setupUserStack (onePage 0x1000) 0x10000 0x2000 [List.replicate 9000 97] [] {}).1 ≠ 0 ∧ ¬ StackOk
        (userView (setupUserStack (onePage 0x1000) 0x10000 0x2000 [List.replicate 9000 97] [] {}).2.mem
          (vmWalk (onePage 0x1000) 0x10000 (pageDown (sub32 0x2000 1))) (pageDown (sub32 0x2000 1)))
        (pageDown (sub32 0x2000 1))
        (setupUserStack (onePage 0x1000) 0x10000 0x2000 [List.replicate 9000 97] [] {}).1
        [List.replicate 9000 97] [] {} := by
  have hok : (setupUserStack (onePage 0x1000) 0x10000 0x2000 [replicate 9000 97] [] {}).1 ≠ 0 := by
    decide +kernel
  refine ⟨hok, fun h => ?_⟩
  obtain ⟨sp, sp', avs, evs, mem₁, mem₂, b⟩ := setupUserStack_built hok
  have hbytes : stringBytes [replicate 9000 97] = 9001 := by
    rw [stringBytes_cons, length_replicate]
    rfl
  have hlen : ∀ s ∈ [replicate 9000 (97 : UInt8)] ++ [], s.length < 4294967296 := by
    intro s hs
    rw [append_nil, mem_singleton] at hs
    rw [hs, length_replicate]
    decide
  have htop : 0x2000 = 0x2000 % 4294967296 := by decide
  have hfit := b.fits htop (by decide) (by decide) (by decide)
    ⟨by decide, by decide, by decide, by decide, by decide⟩ hlen h
  omega

end Embedded.Kernel
