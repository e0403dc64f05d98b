import Embedded.Rtos.FlashNor
import Embedded.Rtos.Tinyfs
import Embedded.Lib.Run

/-! # TinyFS is a map from names to byte strings

The states of the file system stand for those of the map: entry `i` and sector `i + 1` hold the file created as
number `i`, and the sector is erased behind the file's end. Every call keeps this, as long as names fit in an entry
and no write sets a bit that the flash has cleared. -/

namespace Embedded.Rtos

open Function (update update_idem update_self update_of_ne update_eq_self)
open List Option

open Lib

/-! ## Byte strings -/

variable {σ : Type} {d data : List UInt8} {i off : Nat} {e : DirEntry} {name : CStr} {s : Fs σ} {a : NameMap}

variable {old : List UInt8}

theorem overwrite_length (h : off ≤ old.length) :
    (overwrite old off d).length = max old.length (off + d.length) := by
  simp only [overwrite, length_append, length_take, length_drop]
  omega

theorem overwrite_getD (h : off ≤ old.length) (j : Nat) : (overwrite old off d).getD j 0xFF =
      if off ≤ j ∧ j < off + d.length then d.getD (j - off) 0xFF else old.getD j 0xFF := by
  have htake : (old.take off).length = off := by rw [length_take]; omega
  rw [overwrite, append_assoc]
  rcases Nat.lt_or_ge j off with hj | hj
  · rw [if_neg (by omega), getD_append _ _ _ _ (by omega)]
    simp [getD_eq_getElem?_getD, hj]
  rw [getD_append_right _ _ _ _ (by omega), htake]
  rcases Nat.lt_or_ge j (off + d.length) with hd | hd
  · rw [if_pos ⟨hj, hd⟩, getD_append _ _ _ _ (by omega)]
  rw [if_neg (by omega), getD_append_right _ _ _ _ (by omega)]
  have hadd : off + d.length + (j - off - d.length) = j := by omega
  simp [getD_eq_getElem?_getD, getElem?_drop, hadd]

/-- Bytes that only clear bits are what AND leaves, however many of them are written. -/
theorem NameMap.Clears.getD_take (h : NameMap.Clears old data) {n j : Nat} (hj : j < (data.take n).length) :
    old.getD j 0xFF &&& (data.take n).getD j 0xFF = (data.take n).getD j 0xFF := by
  rw [length_take] at hj
  have ht : (data.take n).getD j 0xFF = data.getD j 0xFF := by
    rw [getD_eq_getElem?_getD, getD_eq_getElem?_getD, getElem?_take_of_lt (by omega)]
  rw [ht]
  rcases Nat.lt_or_ge j old.length with hlt | hge
  · have hz : j < (old.zip data).length := by rw [length_zip]; omega
    have hj' : j < data.length := by omega
    have := h ((old.zip data).get ⟨j, hz⟩) (get_mem _ _)
    simpa [getD_eq_getElem?_getD, hlt, hj'] using this
  rw [getD_eq_default _ _ hge]
  exact UInt8.neg_one_and

/-! ## The relation -/

variable {M : FsMount σ}

/-- Entry `e` and sector `i + 1` hold the file `name` with the bytes `c`. -/
structure Slot (mem : Nor) (e : DirEntry) (i : Nat) (name : CStr) (c : List UInt8) : Prop where
  used : e.used = 1
  name : ∃ rest, e.name = name.bytes ++ 0 :: rest
  size : e.size = c.length
  le : c.length ≤ 4096
  bytes : ∀ j < 4096, mem ((i + 1) * 4096 + j) = c.getD j 0xFF

/-- A handle and what it stands for. -/
def FileOk (a : NameMap) (fp : FsFile) : Option (CStr × Nat) → Prop
  | none => fp.isOpen = false
  | some (name, off) =>
    fp.isOpen = true ∧ fp.offset = off ∧ a.names[fp.index]? = some name ∧ off ≤ (a.content name).length

variable (M) in
/-- The state of the file system stands for the map. -/
structure Refines (s : Fs σ) (a : NameMap) : Prop where
  ready : M.dev.Ready s.flash
  few : a.names.length ≤ 15
  nodup : a.names.Nodup
  slot : ∀ i name, a.names[i]? = some name → Slot (M.dev.mem s.flash) (s.dirTable i) i name (a.content name)
  free : ∀ i, a.names.length ≤ i → i < 15 → (s.dirTable i).used = 0
  file : ∀ h, FileOk a (s.files h) (a.files h)

theorem Slot.frame {mem mem' : Nor} {c : List UInt8} (h : Slot mem e i name c)
    (heq : ∀ j < 4096, mem' ((i + 1) * 4096 + j) = mem ((i + 1) * 4096 + j)) : Slot mem' e i name c :=
  { h with bytes := fun j hj => (heq j hj).trans (h.bytes j hj) }

/-! ## The directory -/

theorem dirBytes_length (dirTable : Nat → DirEntry) : (dirBytes dirTable).length = DIR_SIZE := by
  have h : ∀ i, (dirTable i).bytes.length = 24 := by
    intro i
    simp only [DirEntry.bytes, length_append, (dirTable i).name_length, (dirTable i).pad_length,
      length_cons, length_nil, FS_MAX_NAME]
  simp [dirBytes, length_flatMap, h, FS_MAX_FILES, DIR_SIZE, map_const']

/-- Every range inside one of the sectors of the file system is inside the device. -/
theorem FsMount.range_le (M : FsMount σ) {k e : Nat} (hk : k ≤ 15) (he : e ≤ (k + 1) * 4096) : e ≤ M.dev.size :=
  Nat.le_trans he (Nat.le_trans (Nat.mul_le_mul_right 4096 (Nat.succ_le_succ hk)) M.fits)

/-- The directory is written, and only sector 0 changes. -/
theorem dirFlush_spec {s : Fs σ} (h : M.dev.Ready s.flash) :
    ∃ f, dirFlush M s = some { s with flash := f } ∧ M.dev.Ready f ∧
      ∀ a, 4096 ≤ a → M.dev.mem f a = M.dev.mem s.flash a := by
  obtain ⟨f1, h1, hr1, hm1⟩ := NorDevice.erase_spec M.dev h (M.range_le (Nat.zero_le _) Nat.le.refl)
  obtain ⟨f2, h2, hr2, hm2⟩ := @NorDevice.write_spec _ _ M.dev f1 0 (dirBytes s.dirTable) hr1
    (M.range_le (Nat.zero_le _) (by rw [dirBytes_length]; decide))
  refine ⟨f2, ?_, hr2, fun a ha => ?_⟩
  · rw [dirFlush, h1, bind_some, Nat.zero_mul, h2, map_some]
  rw [hm2, hm1, Nor.program_of_le (by rw [dirBytes_length]; unfold DIR_SIZE FS_MAX_FILES; omega),
    Nor.erase_of_ge (by unfold FS_SECTOR_SIZE; omega)]

section

variable (h : Refines M s a)
include h

/-- The test of the loop over the used entries finds the name. -/
theorem Refines.hit_iff (hi : i < 15) (name : CStr) :
    ((s.dirTable i).used != 0 && strEq (s.dirTable i).name name.bytes == some true) = true ↔
      a.names[i]? = some name := by
  rcases Nat.lt_or_ge i a.names.length with hlt | hge
  · obtain ⟨nm, hnm⟩ : ∃ nm, a.names[i]? = some nm := ⟨_, getElem?_eq_getElem hlt⟩
    have hs := h.slot i nm hnm
    obtain ⟨rest, hrest⟩ := hs.name
    rw [hs.used, hrest, strEq_append nm.no_nul name.no_nul, hnm]
    simp [CStr.bytes_inj]
  rw [h.free i hge hi, getElem?_eq_none hge]
  simp

theorem Refines.findName_some (hi : a.names[i]? = some name) : findName s.dirTable name = some i := by
  have hlt : i < a.names.length := (List.getElem?_eq_some_iff.1 hi).1
  have hfew := h.few
  refine find?_range_eq_some.2 ⟨(h.hit_iff (by omega) name).2 hi, mem_range.2 ?_, fun j hj => ?_⟩
  · unfold FS_MAX_FILES
    omega
  rw [Bool.not_eq_true', ← Bool.not_eq_true, h.hit_iff (by omega) name]
  intro hj'
  exact absurd ((getElem?_inj (by omega) h.nodup).1 (hj'.trans hi.symm)) (by omega)

theorem Refines.findName_none (hn : name ∉ a.names) : findName s.dirTable name = none := by
  refine find?_range_eq_none.2 fun i hi => ?_
  rw [Bool.not_eq_true', ← Bool.not_eq_true, h.hit_iff hi name]
  exact fun hi' => hn (mem_of_getElem? hi')

/-- The first free entry follows the used ones. -/
theorem Refines.findFree_eq :
    findFree s.dirTable = if a.names.length < FS_MAX_FILES then some a.names.length else none := by
  have hused : ∀ i < a.names.length, (!((s.dirTable i).used == 0)) = true := by
    intro i hi
    rw [(h.slot i _ (getElem?_eq_getElem hi)).used]
    rfl
  split
  case isTrue hlt =>
    refine find?_range_eq_some.2 ⟨?_, mem_range.2 hlt, hused⟩
    rw [h.free _ Nat.le.refl hlt]
    rfl
  case isFalse hge =>
  exact find?_range_eq_none.2 fun i hi => hused i (by omega)

end

/-! ## The calls -/

theorem strcopy_name (h : name.bytes.length < FS_MAX_NAME) :
    ∃ rest, (e.create name).name = name.bytes ++ 0 :: rest := by
  have htake : name.bytes.take (FS_MAX_NAME - 1) = name.bytes := take_of_length_le (by omega)
  exact ⟨e.name.drop (name.bytes.length + 1), by show strcopy _ _ _ = _; rw [strcopy, htake]⟩

variable {p : Option (CStr × Nat)}

/-- Handles keep their meaning when files are added or grow. -/
theorem FileOk.mono {a' : NameMap} {fp : FsFile} (h : FileOk a fp p)
    (hnames : ∀ (i : Nat) name, a.names[i]? = some name → a'.names[i]? = some name)
    (hlen : ∀ name ∈ a.names, (a.content name).length ≤ (a'.content name).length) : FileOk a' fp p := by
  cases p with
  | none => exact h
  | some p =>
    obtain ⟨hopen, hoff, hidx, hle⟩ := h
    exact ⟨hopen, hoff, hnames _ _ hidx, Nat.le_trans hle (hlen _ (mem_of_getElem? hidx))⟩

/-- A call on one handle leaves the others alone. -/
theorem FileOk.update {files : Nat → FsFile} {ps : Nat → Option (CStr × Nat)} {h : Nat} {fp : FsFile}
    (hfiles : ∀ k, FileOk a (files k) (ps k)) (hfp : FileOk a fp p) (k : Nat) :
    FileOk a (update files h fp k) (update ps h p k) := by
  by_cases hk : k = h
  · subst hk
    rwa [update_self, update_self]
  rw [update_of_ne hk, update_of_ne hk]
  exact hfiles k

variable (hr : Refines M s a)
include hr

theorem Refines.setFile (h : Nat) {fp : FsFile} (hfp : FileOk a fp p) :
    Refines M { s with files := update s.files h fp } { a with files := update a.files h p } :=
  { hr with file := FileOk.update (fun k => (hr.file k).mono (fun _ _ h => h) fun _ _ => Nat.le.refl)
              (hfp.mono (fun _ _ h => h) fun _ _ => Nat.le.refl) }

/-- A new file. -/
theorem Refines.create (hn : name ∉ a.names)
    (hlt : a.names.length < FS_MAX_FILES) (hfit : name.bytes.length < FS_MAX_NAME) :
    ∃ s', tinyfsOpen M s name = some (s', some a.names.length) ∧ s'.files = s.files ∧
      Refines M s' { a with names := a.names ++ [name], content := update a.content name [] } := by
  unfold FS_MAX_FILES at hlt
  obtain ⟨f1, h1, hr1, hm1⟩ := @dirFlush_spec σ M
    { s with dirTable := update s.dirTable a.names.length ((s.dirTable a.names.length).create name) } hr.ready
  obtain ⟨f2, h2, hr2, hm2⟩ := @NorDevice.erase_spec _ _ M.dev f1 (a.names.length + 1) hr1
    (M.range_le (by omega) Nat.le.refl)
  have hopen : tinyfsOpen M s name = some (⟨f2, update s.dirTable a.names.length
      ((s.dirTable a.names.length).create name), s.files⟩, some a.names.length) := by
    rw [tinyfsOpen, hr.findName_none hn, hr.findFree_eq, if_pos (by unfold FS_MAX_FILES; omega)]
    simp only [h1, bind_some, h2, map_some]
  unfold FS_SECTOR_SIZE at hm2
  refine ⟨_, hopen, rfl, ⟨hr2, ?_, ?_, fun i nm hi => ?_, fun i hge hi => ?_, fun h => ?_⟩⟩
  · rw [length_append, length_singleton]
    omega
  · refine nodup_append.2 ⟨hr.nodup, pairwise_singleton _ _, fun x hx y hy => ?_⟩
    rw [mem_singleton.1 hy]
    exact fun h => hn (h ▸ hx)
  · rcases Nat.lt_or_ge i a.names.length with hi' | hi'
    · -- an older file: neither the directory nor the new sector is its own
      rw [getElem?_append_left hi'] at hi
      have hne : nm ≠ name := fun h => hn (h ▸ mem_of_getElem? hi)
      simp only [update_of_ne (Nat.ne_of_lt hi'), update_of_ne hne]
      refine (hr.slot i nm hi).frame fun j hj => ?_
      rw [hm2, Nor.erase_of_lt (by omega), hm1 _ (by omega)]
    rw [getElem?_append_right hi', getElem?_singleton] at hi
    split at hi
    case isFalse _ => cases hi
    case isTrue hz =>
    have hi0 : i = a.names.length := by omega
    cases hi
    subst hi0
    simp only [update_self]
    refine ⟨rfl, strcopy_name hfit, rfl, Nat.zero_le _, fun j hj => ?_⟩
    rw [hm2, Nor.erase_within (by omega) (by omega)]
    rfl
  · rw [length_append, length_singleton] at hge
    simp only [update_of_ne (show i ≠ a.names.length by omega)]
    exact hr.free i (by omega) hi
  refine (hr.file h).mono (fun i nm hi => ?_) fun nm hm => ?_
  · rw [List.getElem?_append_left (List.getElem?_eq_some_iff.1 hi).1, hi]
  have hne : nm ≠ name := fun h => hn (h ▸ hm)
  simp only [update_of_ne hne]
  exact Nat.le.refl

/-- **Opening.** -/
theorem fsOpen_refines (h : Nat) (hfit : name.bytes.length < FS_MAX_NAME) :
    ∃ s', fsOpen M s h name = some (s', (a.step (.open h name)).2) ∧ Refines M s' (a.step (.open h name)).1 := by
  have hr0 := hr.setFile h (show FileOk a ⟨(s.files h).index, 0, false⟩ none from rfl)
  rw [fsOpen, NameMap.step]
  by_cases hn : name ∈ a.names
  · obtain ⟨i, hi⟩ := getElem?_of_mem hn
    rw [if_pos hn, tinyfsOpen, hr0.findName_some hi]
    refine ⟨_, rfl, ?_⟩
    simp only [update_self, update_idem]
    exact hr.setFile h ⟨rfl, rfl, hi, Nat.zero_le _⟩
  rw [if_neg hn]
  by_cases hlt : a.names.length < FS_MAX_FILES
  · obtain ⟨s1, h1, hf1, hr1⟩ := hr0.create hn hlt hfit
    rw [if_pos hlt, h1, map_some]
    refine ⟨_, rfl, ?_⟩
    have hr2 := hr1.setFile h (show FileOk _ ⟨a.names.length, 0, true⟩ (some (name, 0)) from
      ⟨rfl, rfl, by simp, Nat.zero_le _⟩)
    simp only [update_idem] at hr2
    simp only [hf1, update_self]
    rw [hf1] at hr2
    exact hr2
  rw [if_neg hlt, tinyfsOpen, hr0.findName_none hn, hr0.findFree_eq, if_neg hlt]
  exact ⟨_, rfl, hr0⟩

omit hr in
/-- The file after a write: the flash has ANDed the bytes in, and nothing is lost because they only clear bits. -/
theorem Slot.write {mem : Nor} {e' : DirEntry} {c : List UInt8} {n : Nat}
    (h : Slot mem e i name c) (hoff : off ≤ c.length) (hn : off + (data.take n).length ≤ 4096)
    (hclears : NameMap.Clears (c.drop off) data) (hused : e'.used = e.used) (hname : e'.name = e.name)
    (hsize : e'.size = max e.size (off + (data.take n).length)) :
    Slot (mem.program ((i + 1) * 4096 + off) (data.take n)) e' i name (overwrite c off (data.take n)) := by
  have hle := h.le
  refine ⟨hused.trans h.used, hname ▸ h.name, ?_, ?_, fun j hj => ?_⟩
  · rw [hsize, h.size, overwrite_length hoff]
  · rw [overwrite_length hoff]
    omega
  rw [overwrite_getD hoff, Nor.program]
  by_cases hin : off ≤ j ∧ j < off + (data.take n).length
  · obtain ⟨k, rfl⟩ := Nat.exists_eq_add_of_le hin.1
    have hk : k < (data.take n).length := by omega
    have hsub : (i + 1) * 4096 + (off + k) - ((i + 1) * 4096 + off) = k := by omega
    have hold : c.getD (off + k) 0xFF = (c.drop off).getD k 0xFF := by
      rw [getD_eq_getElem?_getD, getD_eq_getElem?_getD, getElem?_drop]
    rw [if_pos (by omega), if_pos hin, h.bytes _ hj, hsub, Nat.add_sub_cancel_left, hold, hclears.getD_take hk]
  rw [if_neg (by omega), if_neg hin, h.bytes j hj]

/-- What a write does to the state: its own file changes, with its entry and its handle. -/
theorem Refines.write
    (hidx : a.names[i]? = some name) (hoff : off ≤ (a.content name).length) (hd : off + d.length ≤ 4096) {s' : Fs σ}
    (hready : M.dev.Ready s'.flash)
    (hmem : ∀ x, 4096 ≤ x → M.dev.mem s'.flash x = (M.dev.mem s.flash).program ((i + 1) * 4096 + off) d x)
    (hslot : Slot ((M.dev.mem s.flash).program ((i + 1) * 4096 + off) d) (s'.dirTable i) i name
      (overwrite (a.content name) off d))
    (htable : ∀ j, j ≠ i → s'.dirTable j = s.dirTable j) (hfiles : s'.files = s.files) :
    Refines M s' { a with content := update a.content name (overwrite (a.content name) off d) } := by
  have hi : i < a.names.length := (List.getElem?_eq_some_iff.1 hidx).1
  refine ⟨hready, hr.few, hr.nodup, fun j nm hj => ?_, fun j hge hj => ?_, fun h => ?_⟩
  · by_cases hji : j = i
    · subst hji
      obtain rfl : name = nm := some.inj (hidx.symm.trans hj)
      simp only [update_self]
      exact hslot.frame fun k hk => hmem _ (by omega)
    -- another file: its sector is not the one that is written
    have hne : nm ≠ name := by
      rintro rfl
      exact hji ((List.getElem?_inj (List.getElem?_eq_some_iff.1 hj).1 hr.nodup).1 (hj.trans hidx.symm))
    simp only [update_of_ne hne]
    rw [htable j hji]
    refine (hr.slot j nm hj).frame fun k hk => ?_
    rw [hmem _ (by omega)]
    rcases Nat.lt_or_gt_of_ne hji with hlt | hgt
    · exact Nor.program_of_lt _ (by omega)
    exact Nor.program_of_le (by omega)
  · rw [htable j (Nat.ne_of_gt (Nat.lt_of_lt_of_le hi hge))]
    exact hr.free j hge hj
  rw [hfiles]
  refine (hr.file h).mono (fun _ _ h => h) fun nm _ => ?_
  by_cases hne : nm = name
  · subst hne
    simp only [update_self]
    rw [overwrite_length hoff]
    omega
  simp only [update_of_ne hne]
  exact Nat.le.refl

omit hr in
/-- A write through an open handle, when the flash has taken the bytes `d`. -/
theorem tinyfsWrite_eq {h : Nat} {f : σ} (hopen : (s.files h).isOpen = true)
    (hoff : (s.files h).offset = off) (hd : data.take (sub32 FS_SECTOR_SIZE off) = d)
    (hlen : off + d.length < 4294967296)
    (hw : M.dev.write s.flash (((s.files h).index + 1) * FS_SECTOR_SIZE + off) d = some f) :
    tinyfsWrite M s h data = if (s.dirTable (s.files h).index).size < off + d.length then (dirFlush M
          ⟨f, update s.dirTable (s.files h).index
                { s.dirTable (s.files h).index with size := off + d.length },
            update s.files h { s.files h with offset := off + d.length }⟩).map
          fun s => (s, ((d.length : Int), []))
      else some (⟨f, s.dirTable, update s.files h { s.files h with offset := off + d.length }⟩,
          ((d.length : Int), [])) := by
  rw [tinyfsWrite, if_neg (by rw [hopen]; decide), hoff, hd]
  simp only
  rw [hw, bind_some, add32_of_lt hlen]

/-- **Writing.** -/
theorem tinyfsWrite_refines {h : Nat} (hfit : a.Fits (.write h data)) :
    ∃ s', tinyfsWrite M s h data = some (s', (a.step (.write h data)).2) ∧
      Refines M s' (a.step (.write h data)).1 := by
  have hfile := hr.file h
  rw [NameMap.step]
  cases ha : a.files h with
  | none =>
    rw [ha] at hfile
    have hclosed : (s.files h).isOpen = false := hfile
    exact ⟨s, by rw [tinyfsWrite, if_pos hclosed], hr⟩
  | some p => ?_
  obtain ⟨name, off⟩ := p
  rw [ha] at hfile
  obtain ⟨hopen, hoff, hidx, hle⟩ := hfile
  have hslot := hr.slot _ _ hidx
  have hclears : NameMap.Clears ((a.content name).drop off) data := hfit _ ha
  have hi : (s.files h).index < a.names.length := (List.getElem?_eq_some_iff.1 hidx).1
  have hfew := hr.few
  have hle4 := hslot.le
  have hsub : sub32 FS_SECTOR_SIZE off = 4096 - off := sub32_of_le (Nat.le_trans hle hle4) (by decide)
  obtain ⟨d, hd⟩ : ∃ d, data.take (4096 - off) = d := ⟨_, rfl⟩
  have hlen : off + d.length ≤ 4096 := by
    rw [← hd, length_take]
    omega
  have hfp : FileOk { a with content := update a.content name (overwrite (a.content name) off d) }
      { s.files h with offset := off + d.length } (some (name, off + d.length)) := by
    refine ⟨hopen, rfl, hidx, ?_⟩
    simp only [update_self]
    rw [overwrite_length hle]
    omega
  obtain ⟨f1, h1, hr1, hm1⟩ := @NorDevice.write_spec _ _ M.dev s.flash
    (((s.files h).index + 1) * FS_SECTOR_SIZE + off) d hr.ready
    (FsMount.range_le M (by omega) (by unfold FS_SECTOR_SIZE; omega))
  rw [tinyfsWrite_eq hopen hoff (hsub.symm ▸ hd) (by omega) h1]
  simp only [show FS_SECTOR_SIZE - off = 4096 - off from rfl, hd]
  split
  case isTrue hgrow =>
    -- the file grows: its size is recorded and the directory is written again
    obtain ⟨f2, h2, hr2, hm2⟩ := @dirFlush_spec σ M
      ⟨f1, update s.dirTable (s.files h).index { s.dirTable (s.files h).index with size := off + d.length },
        update s.files h { s.files h with offset := off + d.length }⟩ hr1
    rw [h2, map_some]
    refine ⟨_, rfl, Refines.setFile (s := ⟨f2, _, s.files⟩)
      (hr.write hidx hle hlen hr2 (fun x hx => ?_) ?_ ?_ rfl) h hfp⟩
    · rw [hm2 x hx, hm1]
      rfl
    · subst hd
      refine hslot.write hle hlen hclears ?_ ?_ ?_
      all_goals simp only [update_self]
      omega
    intro j hj
    simp only [update_of_ne hj]
  case isFalse hgrow =>
  refine ⟨_, rfl, Refines.setFile (s := ⟨f1, _, s.files⟩)
    (hr.write hidx hle hlen hr1 (fun x hx => ?_) ?_ ?_ rfl) h hfp⟩
  · rw [hm1]
    rfl
  · subst hd
    exact hslot.write hle hlen hclears rfl rfl (Nat.max_eq_left (Nat.le_of_not_lt hgrow)).symm
  exact fun _ _ => rfl

omit hr in
theorem Slot.read {mem : Nor} {c : List UInt8} (h : Slot mem e i name c)
    {n : Nat} (hn : off + n ≤ c.length) : mem.read ((i + 1) * 4096 + off) n = (c.drop off).take n := by
  have hle := h.le
  refine ext_getElem (by simp; omega) fun k hk _ => ?_
  rw [Nor.read_length] at hk
  have hlt : off + k < c.length := by omega
  simp only [Nor.read, getElem_map, getElem_range, getElem_take, getElem_drop]
  rw [Nat.add_assoc, h.bytes _ (by omega), getD_eq_getElem _ _ hlt]

/-- **Reading.** -/
theorem tinyfsRead_refines (h len : Nat) : (tinyfsRead M s h len).2 = (a.step (.read h len)).2 ∧
      Refines M (tinyfsRead M s h len).1 (a.step (.read h len)).1 := by
  have hfile := hr.file h
  rw [NameMap.step]
  cases ha : a.files h with
  | none =>
    rw [ha] at hfile
    have hclosed : (s.files h).isOpen = false := hfile
    rw [tinyfsRead, if_pos hclosed]
    exact ⟨rfl, hr⟩
  | some p => ?_
  obtain ⟨name, off⟩ := p
  rw [ha] at hfile
  obtain ⟨hopen, hoff, hidx, hle⟩ := hfile
  have hslot := hr.slot _ _ hidx
  have hle4 := hslot.le
  have hi : (s.files h).index < a.names.length := (List.getElem?_eq_some_iff.1 hidx).1
  have hfew := hr.few
  have hsub : sub32 (s.dirTable (s.files h).index).size off = (a.content name).length - off := by
    rw [hslot.size]
    exact sub32_of_le hle (by omega)
  obtain ⟨n, hn⟩ : ∃ n, min len ((a.content name).length - off) = n := ⟨_, rfl⟩
  have htake : ((a.content name).drop off).take len = ((a.content name).drop off).take n := by
    rw [← hn, ← length_drop, take_eq_take_min]
  have hlen : (((a.content name).drop off).take n).length = n := by
    rw [length_take, length_drop]
    omega
  have hcut : min len (sub32 (s.dirTable (s.files h).index).size (s.files h).offset) = n := by rw [hoff, hsub, hn]
  simp only [htake, hlen]
  rw [tinyfsRead, if_neg (by rw [hopen]; decide)]
  simp only [hcut]
  split
  case isTrue hz =>
    -- at the end of the file: nothing is read and the position stays
    subst hz
    refine ⟨by simp, ?_⟩
    rw [Nat.add_zero, ← ha, update_eq_self]
    exact hr
  case isFalse hz =>
  obtain ⟨hd, hready, hmem⟩ := @NorDevice.read_spec _ _ M.dev s.flash
    (((s.files h).index + 1) * FS_SECTOR_SIZE + off) n hr.ready
    (FsMount.range_le M (by omega) (by unfold FS_SECTOR_SIZE; omega))
  have hread := @Slot.read _ off _ _ _ _ hslot n (by omega)
  rw [hoff]
  refine ⟨Prod.ext rfl (hd.trans hread), ?_⟩
  refine Refines.setFile (s := ⟨_, s.dirTable, s.files⟩) { hr with ready := hready, slot := ?_ } h ?_
  · intro i nm hi
    rw [hmem]
    exact hr.slot i nm hi
  exact ⟨hopen, add32_of_lt (by omega), hidx, by omega⟩

/-! ## Runs -/

/-- **One call** of the file system is the call on the map, with the same reply. -/
theorem fsStep_refines {c : FsCall} (hfit : a.Fits c) :
    ∃ s', fsStep M s c = some (s', (a.step c).2) ∧ Refines M s' (a.step c).1 := by
  cases c with
  | «open» h name => exact fsOpen_refines hr h hfit
  | write h data => exact tinyfsWrite_refines hr hfit
  | read h len =>
    obtain ⟨hreply, hr'⟩ := tinyfsRead_refines hr h len
    exact ⟨_, by rw [fsStep, ← hreply], hr'⟩
  | rewind h =>
    refine ⟨_, rfl, hr.setFile h ?_⟩
    have hfile := hr.file h
    cases ha : a.files h with
    | none =>
      rw [ha] at hfile
      exact hfile
    | some p =>
      rw [ha] at hfile
      exact ⟨hfile.1, rfl, hfile.2.2.1, Nat.zero_le _⟩
  | close h => exact ⟨_, rfl, hr.setFile h rfl⟩

theorem fsRun_refines {calls : List FsCall} (hok : AllOk (fun a c => (a.step c).1) NameMap.Fits a calls) :
    ∃ s', fsRun M s calls = some (s', a.run calls) := by
  induction calls generalizing s a with
  | nil => exact ⟨s, rfl⟩
  | cons c cs ih =>
    obtain ⟨s1, h1, hr1⟩ := fsStep_refines hr hok.1
    obtain ⟨s2, h2⟩ := ih hr1 hok.2
    exact ⟨s2, by rw [fsRun, h1, bind_some, h2, map_some, NameMap.run]⟩

omit hr

/-- An erased flash is formatted when it is mounted, and holds no file. -/
theorem tinyfsMount_refines {f : σ} (hready : M.dev.Ready f) (herased : ∀ a, M.dev.mem f a = 0xFF) :
    ∃ s, tinyfsMount M f = some s ∧ Refines M s .empty := by
  obtain ⟨hd, hr0, -⟩ := @NorDevice.read_spec _ _ M.dev f 0 DIR_SIZE hready (M.range_le (Nat.zero_le _) (by decide))
  have hused : (dirEntryAt (M.dev.read f 0 DIR_SIZE).2 0).used = 0xFF := by
    show getD _ _ _ = _
    rw [hd, getD_eq_getElem _ _ (by rw [Nor.read_length]; decide)]
    simp [Nor.read, herased]
  obtain ⟨f1, h1, hr1, -⟩ := @dirFlush_spec σ M
    ⟨(M.dev.read f 0 DIR_SIZE).1, fun i => (dirEntryAt (M.dev.read f 0 DIR_SIZE).2 i).clear,
      fun _ => ⟨0, 0, false⟩⟩ hr0
  have hmount : tinyfsMount M f = some
      ⟨f1, fun i => (dirEntryAt (M.dev.read f 0 DIR_SIZE).2 i).clear, fun _ => ⟨0, 0, false⟩⟩ := by
    rw [tinyfsMount, if_pos hused, h1]
  refine ⟨_, hmount, hr1, Nat.zero_le _, nodup_nil, fun i name hi => ?_, fun _ _ _ => rfl, fun _ => rfl⟩
  cases hi

variable (M) in
/-- **TinyFS is a map from names to byte strings.** On an erased flash, every sequence of calls gets the replies of
the map, provided that each name fits in an entry and each write only clears bits of the bytes that it replaces. -/
theorem tinyfs_name_map (f : σ) (hready : M.dev.Ready f) (herased : ∀ a, M.dev.mem f a = 0xFF) (calls : List FsCall)
    (hok : AllOk (fun a c => (a.step c).1) NameMap.Fits .empty calls) :
    ∃ s₀ s, tinyfsMount M f = some s₀ ∧ fsRun M s₀ calls = some (s, NameMap.empty.run calls) := by
  obtain ⟨s₀, h0, hr₀⟩ := tinyfsMount_refines hready herased
  obtain ⟨s, hs⟩ := fsRun_refines hr₀ hok
  exact ⟨s₀, s, h0, hs⟩

/-- The file system on the driver and its chip. -/
def w25qMount : FsMount World := ⟨w25qNor fun _ => 0, by decide⟩

/-- A chip after power-on, erased. -/
def erasedWorld : World := { zeroedWorld with chip := { zeroedWorld.chip with data := fun _ => 0xFF } }

/-- A file is written, written again from its start with fewer bits set, and read. -/
theorem tinyfs_name_map_w25q : ∃ s₀ s, tinyfsMount w25qMount erasedWorld = some s₀ ∧ fsRun w25qMount s₀
          [.open 0 ⟨[97], by decide⟩, .write 0 [3, 5], .rewind 0, .write 0 [1], .rewind 0, .read 0 9] =
        some (s, [(0, []), (2, []), (0, []), (1, []), (0, []), (2, [1, 5])]) := by
  refine tinyfs_name_map w25qMount erasedWorld ⟨rfl, rfl⟩ (fun _ => rfl) _
    ⟨(by decide : 1 < 16), ?_, trivial, ?_, trivial, trivial, trivial⟩
  · rintro p ⟨⟩
    exact (by decide : NameMap.Clears [] [3, 5])
  · rintro p ⟨⟩
    exact (by decide : NameMap.Clears [3, 5] [1])

/-- One byte written, the same file written again from its start with a byte that sets another bit, and read: the
reply is neither of the two bytes. -/
theorem tinyfs_rewrite_differs :
    (tinyfsMount ⟨Nor.device 65536 4096, by decide⟩ fun _ => 0xFF).bind (fun s₀ =>
        (fsRun ⟨Nor.device 65536 4096, by decide⟩ s₀
          [.open 0 ⟨[97], by decide⟩, .write 0 [1], .rewind 0, .write 0 [2], .rewind 0, .read 0 1]).map
            fun r => r.2.getLast?) = some (some (1, [0])) ∧
      (NameMap.empty.run [.open 0 ⟨[97], by decide⟩, .write 0 [1], .rewind 0, .write 0 [2], .rewind 0,
        .read 0 1]).getLast? = some (1, [2]) := by decide +kernel

end Embedded.Rtos
