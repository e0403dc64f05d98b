import Embedded.Toolchain.Ld.Reloc

/-! # A relocatable link is transparent (`md_rel_adjust` of `ld/arm.c`)

For each way of packing an addend: what is written is read back, as long as it fits the field, and the
rest of the word stays. So an adjusted field holds the addend plus the displacement, and applying the
relocation to it with the output section's address comes to the same as applying it to the field as it was
with the input section's. -/

namespace Embedded.Toolchain.Ld.Reloc

variable {w : Nat} {n : Int}

/-! ## Reading back a field -/

theorem branchAddend_set (h4 : n % 4 = 0) (hlo : -33554432 ≤ n) (hhi : n < 33554432) :
    branchAddend (branchSet w (n / 4)) = n := by
  unfold branchAddend branchSet sext
  split <;> omega

theorem branchSet_set (w : Nat) (v v' : Int) : branchSet (branchSet w v) v' = branchSet w v' := by
  unfold branchSet
  omega

theorem prel31Addend_set (hlo : -1073741824 ≤ n) (hhi : n < 1073741824) :
    prel31Addend (prel31Set w n) = n := by
  unfold prel31Addend prel31Set sext
  split <;> omega

theorem prel31Set_set (w : Nat) (v v' : Int) : prel31Set (prel31Set w v) v' = prel31Set w v' := by
  unfold prel31Set
  omega

theorem movwAddend_set (hlo : -32768 ≤ n) (hhi : n ≤ 32767) :
    movwAddend (movwSet w (n % 65536).toNat) = n := by
  unfold movwAddend movwSet sext
  split <;> omega

theorem movwSet_set (w v v' : Nat) : movwSet (movwSet w v) v' = movwSet w v' := by
  unfold movwSet
  omega

/-! ## Moving the displacement from the field to the address -/

theorem ofS_congr {x y : Int} (h : x % 4294967296 = y % 4294967296) : ofS x = ofS y := by
  unfold ofS
  rw [h]

/-- Word arithmetic does not see whether the displacement is in the addend or in the address. -/
theorem ofS_move (s delta : Nat) (a c : Int) :
    ofS ((s : Int) + (a + delta) + c) = ofS ((add32 s delta : Nat) + a + c) := by
  apply ofS_congr
  unfold add32
  omega

theorem ofS_move_word (s w delta : Nat) (c : Int) :
    ofS ((s : Int) + (add32 w delta : Nat) + c) = ofS ((add32 s delta : Nat) + (w : Int) + c) := by
  apply ofS_congr
  unfold add32
  omega

theorem prel31Set_move (w s p delta : Nat) (a : Int) :
    prel31Set w ((s : Int) + (a + delta) - p) = prel31Set w ((add32 s delta : Nat) + a - p) := by
  unfold prel31Set add32
  omega

theorem applyBranch_move (path : String) {s p delta : Nat} (hn : n = branchAddend w + delta)
    (h4 : n % 4 = 0) (hlo : -33554432 ≤ n) (hhi : n < 33554432) :
    applyBranch path (branchSet w (n / 4)) s p = applyBranch path w (add32 s delta) p := by
  have hx : ofS ((s : Int) + n - p) = ofS ((add32 s delta : Nat) + branchAddend w - p) := by
    rw [hn]
    exact ofS_move s delta (branchAddend w) (-p)
  have hdest : ofS ((s : Int) + n + 8) = ofS ((add32 s delta : Nat) + branchAddend w + 8) := by
    rw [hn]
    exact ofS_move s delta (branchAddend w) 8
  unfold applyBranch
  simp only [branchAddend_set h4 hlo hhi, branchSet_set, hx, hdest]

/-- **Relocatable linking is transparent**: when the addend of a field can be moved by `delta`, relocating
the moved field against the output section at `s` gives the same word, or the same error, as relocating the
field against the input section at `s + delta`. -/
theorem mdApplyReloc_relAdjust (path : String) (gotOrg : Nat) (type : RelType) (w w' delta s p : Nat)
    (h : mdRelAdjust type w delta = some w') :
    mdApplyReloc path gotOrg type w' s p = mdApplyReloc path gotOrg type w (add32 s delta) p := by
  -- the types whose addend is the whole word, and those with an addend of 16 bits
  have word0 := ofS_move_word s w delta 0
  have wordP := ofS_move_word s w delta (-p)
  have wordGot := ofS_move_word s w delta (-gotOrg)
  have field0 := ofS_move s delta (movwAddend w) 0
  have fieldP := ofS_move s delta (movwAddend w) (-p)
  simp only [← Int.sub_eq_add_neg, Int.add_zero] at word0 wordP wordGot field0 fieldP
  cases type with
  | none | v4bx =>
    cases h
    rfl
  | abs32 | target1 | tlsLe32 | tlsLdo32 =>
    cases h
    exact congrArg _ word0
  | rel32 | gotPrel | tlsGd32 | tlsLdm32 | tlsIe32 =>
    cases h
    exact congrArg _ wordP
  | gotBrel | gotoff32 =>
    cases h
    exact congrArg _ wordGot
  | prel31 =>
    obtain ⟨hr, ⟨⟩⟩ := Option.ite_none_left_eq_some.1 h
    obtain ⟨hlo, hhi⟩ := not_or.1 hr
    simp only [mdApplyReloc]
    rw [prel31Set_set, prel31Addend_set (Int.not_lt.1 hlo) (Int.not_le.1 hhi), prel31Set_move]
  | call | jump24 =>
    obtain ⟨hr, ⟨⟩⟩ := Option.ite_none_left_eq_some.1 h
    obtain ⟨h4, hr⟩ := not_or.1 hr
    obtain ⟨hlo, hhi⟩ := not_or.1 hr
    exact applyBranch_move path rfl (not_not.1 h4) (Int.not_lt.1 hlo) (Int.not_le.1 hhi)
  | movwAbsNc | movtAbs =>
    obtain ⟨hr, ⟨⟩⟩ := Option.ite_none_left_eq_some.1 h
    obtain ⟨hlo, hhi⟩ := not_or.1 hr
    simp only [mdApplyReloc, movwSet_set, movwAddend_set (Int.not_lt.1 hlo) (Int.not_lt.1 hhi), field0]
  | movwPrelNc | movtPrel =>
    obtain ⟨hr, ⟨⟩⟩ := Option.ite_none_left_eq_some.1 h
    obtain ⟨hlo, hhi⟩ := not_or.1 hr
    simp only [mdApplyReloc, movwSet_set, movwAddend_set (Int.not_lt.1 hlo) (Int.not_lt.1 hhi), fieldP]
  | basePrel | aluPcG | ldrPcG | ldrsPcG | ldcPcG | other => cases h

/-- A `bl` into a section that lands at 0x40 of the output section. -/
theorem mdApplyReloc_relAdjust_bl : mdRelAdjust .call 0xebfffffe 0x40 = some 0xeb00000e ∧
    mdApplyReloc "a.o" 0 .call 0xeb00000e 0x8000 0x8100 =
      mdApplyReloc "a.o" 0 .call 0xebfffffe (add32 0x8000 0x40) 0x8100 :=
  ⟨by decide, mdApplyReloc_relAdjust _ _ _ _ _ _ _ _ (by decide)⟩

end Embedded.Toolchain.Ld.Reloc
