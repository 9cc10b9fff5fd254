import TweakedXv6.VirtioModel

namespace TweakedXv6.Virtio

open Function (update update_self update_apply update_of_ne)

variable {d d' : Disk} {c : Call} {i j i0 i1 i2 : Nat}

theorem free_of_update {f : Nat → Bool} (h : update f i false j = true) : j ≠ i ∧ f j = true := by
  have hne : j ≠ i := by
    intro he
    rw [he, update_self] at h
    cases h
  rw [update_of_ne hne] at h
  exact ⟨hne, h⟩

theorem allocDesc_cases (d : Disk) :
    (∃ i < NUM, d.free i = true ∧ allocDesc d = ({ d with free := update d.free i false }, some i)) ∨
      allocDesc d = (d, none) := by
  unfold allocDesc
  cases h : (List.range NUM).find? d.free with
  | some i =>
    exact .inl ⟨i, List.mem_range.mp (List.mem_of_find?_eq_some h), List.find?_some h, rfl⟩
  | none => exact .inr rfl

theorem freeDesc_eq (hi : i < NUM) (hf : d.free i = false) : freeDesc d i =
    .ok { d with desc := update d.desc i {}, free := update d.free i true } := by
  rw [freeDesc, if_neg (by omega), hf]
  rfl

/-- It takes three descriptors or none; if none, it may have cleared some that are free. -/
theorem alloc3Desc_cases (d : Disk) :
    (∃ i0 i1 i2, [i0, i1, i2].Nodup ∧ (∀ i ∈ [i0, i1, i2], i < NUM ∧ d.free i = true) ∧
      alloc3Desc d = .ok ({ d with free := fun i => if i ∈ [i0, i1, i2] then false else d.free i },
        some (i0, i1, i2))) ∨
    ∃ desc, alloc3Desc d = .ok ({ d with desc }, none) ∧ ∀ i, d.free i = false → desc i = d.desc i := by
  unfold alloc3Desc
  rcases allocDesc_cases d with ⟨i0, h0, hf0, he0⟩ | he0
  · rw [he0]
    dsimp only
    rcases allocDesc_cases { d with free := update d.free i0 false } with ⟨i1, h1, hf1, he1⟩ | he1
    · obtain ⟨h10, hf1⟩ := free_of_update hf1
      rw [he1]
      dsimp only
      rcases allocDesc_cases { d with free := update (update d.free i0 false) i1 false } with
        ⟨i2, h2, hf2, he2⟩ | he2
      · obtain ⟨h21, hf2⟩ := free_of_update hf2
        obtain ⟨h20, hf2⟩ := free_of_update hf2
        rw [he2]
        refine .inl ⟨i0, i1, i2, ?_, ?_, ?_⟩
        · simp [h10.symm, h20.symm, h21.symm]
        · intro i hi
          simp only [List.mem_cons, List.not_mem_nil, or_false] at hi
          rcases hi with rfl | rfl | rfl
          · exact ⟨h0, hf0⟩
          · exact ⟨h1, hf1⟩
          · exact ⟨h2, hf2⟩
        · dsimp only
          congr 3
          funext i
          simp only [List.mem_cons, List.not_mem_nil, or_false, update_apply]
          by_cases hi2 : i = i2
          · simp [hi2]
          · by_cases hi1 : i = i1
            · simp [hi1]
            · simp [hi1, hi2]
      · -- the third is missing: the first two are freed
        rw [he2]
        dsimp only
        rw [freeDesc_eq h0 (by simp [h10.symm])]
        simp only [bind, Except.bind]
        rw [freeDesc_eq h1 (by simp [h10])]
        refine .inr ⟨update (update d.desc i0 {}) i1 {}, ?_, fun i hi => ?_⟩
        · dsimp only
          congr 3
          funext i
          simp only [update_apply]
          by_cases hi1 : i = i1
          · simp [hi1, hf1]
          · by_cases hi0 : i = i0
            · simp [hi0, hf0, h10.symm]
            · simp [hi0, hi1]
        · have hi0 : i ≠ i0 := fun he => by rw [he, hf0] at hi; cases hi
          have hi1 : i ≠ i1 := fun he => by rw [he, hf1] at hi; cases hi
          simp [hi0, hi1]
    · rw [he1]
      dsimp only
      rw [freeDesc_eq h0 (update_self ..)]
      refine .inr ⟨update d.desc i0 {}, ?_, fun i hi => ?_⟩
      · simp only [bind, Except.bind]
        congr 3
        funext i
        simp only [update_apply]
        by_cases hi0 : i = i0
        · simp [hi0, hf0]
        · simp [hi0]
      · have hi0 : i ≠ i0 := fun he => by rw [he, hf0] at hi; cases hi
        simp [hi0]
  · rw [he0]
    exact .inr ⟨d.desc, rfl, fun _ _ => rfl⟩

/-- The three descriptors of a request are linked, and the last points at the status of its head. -/
structure Linked (d : Disk) (c : Call) : Prop where
  first : (d.desc c.i0).flags &&& VRING_DESC_F_NEXT ≠ 0 ∧ (d.desc c.i0).next = c.i1
  second : (d.desc c.i1).flags &&& VRING_DESC_F_NEXT ≠ 0 ∧ (d.desc c.i1).next = c.i2
  third : (d.desc c.i2).flags &&& VRING_DESC_F_NEXT = 0 ∧ (d.desc c.i2).addr = .status c.i0

structure Ready (d : Disk) (c : Call) : Prop extends Linked d c where
  info : d.infoB c.i0 = some c.b

theorem ready_format (hnd : [c.i0, c.i1, c.i2].Nodup) (blockno : Nat) : Ready (format d blockno c) c := by
  simp only [List.nodup_cons, List.mem_cons, List.not_mem_nil, or_false, not_or] at hnd
  obtain ⟨⟨h01, h02⟩, h12, _⟩ := hnd
  have hflags : ((if c.write then 0 else VRING_DESC_F_WRITE) ||| VRING_DESC_F_NEXT) &&& VRING_DESC_F_NEXT ≠ 0 := by
    cases c.write <;> decide
  constructor
  case info => simp [format]
  constructor
  case first => simp [format, h01, h02, VRING_DESC_F_NEXT]
  case second => simpa [format, h12] using hflags
  case third => simp [format, VRING_DESC_F_NEXT, VRING_DESC_F_WRITE]

theorem Ready.congr {c' : Call} (h : Ready d c) (hdesc : ∀ i ∈ [c.i0, c.i1, c.i2], d'.desc i = d.desc i)
    (hinfo : d'.infoB c.i0 = d.infoB c.i0) (h0 : c'.i0 = c.i0) (h1 : c'.i1 = c.i1) (h2 : c'.i2 = c.i2)
    (hb : c'.b = c.b) : Ready d' c' := by
  have e0 := hdesc c.i0 (by simp)
  have e1 := hdesc c.i1 (by simp)
  have e2 := hdesc c.i2 (by simp)
  constructor
  case info =>
    rw [h0, hb, hinfo]
    exact h.info
  constructor
  case first =>
    rw [h0, h1, e0]
    exact h.first
  case second =>
    rw [h1, h2, e1]
    exact h.second
  case third =>
    rw [h0, h2, e2]
    exact h.third

theorem freeChain_eq (h : Linked d c) (hnd : [c.i0, c.i1, c.i2].Nodup)
    (hown : ∀ i ∈ [c.i0, c.i1, c.i2], i < NUM ∧ d.free i = false) :
    freeChain (NUM + 1) d c.i0 = .ok { d with
      desc := fun i => if i ∈ [c.i0, c.i1, c.i2] then {} else d.desc i
      free := fun i => if i ∈ [c.i0, c.i1, c.i2] then true else d.free i } := by
  obtain ⟨hl0, hf0⟩ := hown c.i0 (by simp)
  obtain ⟨hl1, hf1⟩ := hown c.i1 (by simp)
  obtain ⟨hl2, hf2⟩ := hown c.i2 (by simp)
  simp only [List.nodup_cons, List.mem_cons, List.not_mem_nil, or_false, not_or] at hnd
  obtain ⟨⟨h01, h02⟩, h12, _⟩ := hnd
  have hNUM : NUM + 1 = 6 + 1 + 1 + 1 := rfl
  rw [hNUM, freeChain, freeDesc_eq hl0 hf0]
  simp only [bind, Except.bind]
  rw [if_pos h.first.1, h.first.2, freeChain, freeDesc_eq hl1 (by simpa [Ne.symm h01] using hf1)]
  simp only [bind, Except.bind]
  rw [update_of_ne (Ne.symm h01), if_pos h.second.1, h.second.2, freeChain,
    freeDesc_eq hl2 (by simpa [Ne.symm h02, Ne.symm h12] using hf2)]
  simp only [bind, Except.bind]
  rw [update_of_ne (Ne.symm h12), update_of_ne (Ne.symm h02), if_neg (not_not.mpr h.third.1)]
  congr 2
  · funext i
    simp only [update_apply, List.mem_cons, List.not_mem_nil, or_false]
    by_cases e2 : i = c.i2
    · simp [e2]
    · by_cases e1 : i = c.i1
      · simp [e1]
      · simp [e1, e2]
  · funext i
    simp only [update_apply, List.mem_cons, List.not_mem_nil, or_false]
    by_cases e2 : i = c.i2
    · simp [e2]
    · by_cases e1 : i = c.i1
      · simp [e1]
      · simp [e1, e2]

end TweakedXv6.Virtio
