import Mathlib.Data.Finset.Union
import TweakedXv6.FsGrow

namespace TweakedXv6.Fs

open Prog Files
open Function (update update_idem update_self update_of_ne update_eq_self)

def bytes (k : Fin NINODE) (s : Volume) (i : Nat) : Bytes := fun o =>
  if places k s (i, .index (o / BSIZE)) = 0 then 0
  else s.block (places k s (i, .index (o / BSIZE))) (o % BSIZE)

def wanted (off n : Nat) : Finset Slot := (Finset.range n).biUnion fun i => needed ((off + i) / BSIZE)

/-- The bytes `bs` are written at `off` of the file at `k`, where blocks may be new; the other files are
as they were. -/
structure Wrote (sb : Superblock) (k : Fin NINODE) (off : Nat) (bs : List UInt8) (s t : Volume) : Prop where
  owned : Owned sb k t
  inode : ∃ a z, t.inode = update s.inode k
    { s.inode k with copy := { (s.inode k).copy with addrs := a, size := z } }
  dinode : ∀ i, i ≠ (s.inode k).inum → t.dinode i = s.dinode i
  slots : ∀ w, places k s w ≠ 0 → places k t w = places k s w
  others : ∀ i x, i ≠ (s.inode k).inum → places k t (i, x) = places k s (i, x)
  filled : ∀ o, off ≤ o → o < off + bs.length → places k t ((s.inode k).inum, .index (o / BSIZE)) ≠ 0
  self : bytes k t (s.inode k).inum = (bytes k s (s.inode k).inum).write off bs
  rest : ∀ i, i ≠ (s.inode k).inum → bytes k t i = bytes k s i

/-- The free blocks that are gone are at slots `W` of the inode at `k`. -/
def Balanced (sb : Superblock) (k : Fin NINODE) (W : Finset Slot) (s t : Volume) : Prop :=
  ∀ V, W ⊆ V → freeCount sb s + (missing k t V).card = freeCount sb t + (missing k s V).card

def cut (off n : Nat) : Nat := (off + n) / BSIZE * BSIZE - off

variable {sb : Superblock} {k : Fin NINODE} {s t u : Volume} {b i o off n tot fuel l m z : Nat}
  {src bs bs' : List UInt8} {A W W' : Finset Slot} {c : Bytes}

theorem Wrote.inum (h : Wrote sb k off bs s t) : (t.inode k).inum = (s.inode k).inum := by
  obtain ⟨a, z, ha⟩ := h.inode
  rw [ha, update_self]

theorem Wrote.trans (h : Wrote sb k off bs s t) (h' : Wrote sb k (off + bs.length) bs' t u) :
    Wrote sb k off (bs ++ bs') s u := by
  have hinum := h.inum
  constructor
  case owned => exact h'.owned
  case inode =>
    obtain ⟨a, z, ha⟩ := h.inode
    obtain ⟨a', z', ha'⟩ := h'.inode
    refine ⟨a', z', ?_⟩
    rw [ha', ha, update_self, update_idem]
  case dinode =>
    intro i hi
    rw [h'.dinode i (by rwa [hinum]), h.dinode i hi]
  case slots =>
    intro w hw
    rw [h'.slots w (by rwa [h.slots w hw]), h.slots w hw]
  case others =>
    intro i x hi
    rw [h'.others i x (by rwa [hinum]), h.others i x hi]
  case filled =>
    intro o hlo hhi
    rw [List.length_append] at hhi
    rcases Nat.lt_or_ge o (off + bs.length) with hlt | hge
    · rw [h'.slots _ (h.filled o hlo hlt)]
      exact h.filled o hlo hlt
    · rw [← hinum]
      exact h'.filled o hge (by omega)
  case self => rw [← hinum, h'.self, hinum, h.self, Bytes.write_append]
  case rest =>
    intro i hi
    rw [h'.rest i (by rwa [hinum]), h.rest i hi]

theorem Added.bytes_eq (h : Added sb k A s t) : bytes k t i = bytes k s i := by
  funext o
  have hne := Slot.index_ne (o / BSIZE)
  unfold bytes
  by_cases hA : i = (s.inode k).inum ∧ Slot.index (o / BSIZE) ∈ A
  · obtain ⟨rfl, hA⟩ := hA
    rw [if_neg (h.full _ hA), if_pos (h.empty _ hA), h.zero _ hA hne]
  · rw [h.same i _ fun hi hmem => hA ⟨hi, hmem⟩]
    by_cases hz : places k s (i, .index (o / BSIZE)) = 0
    · rw [if_pos hz, if_pos hz]
    · rw [if_neg hz, if_neg hz]
      exact congrFun (h.grown.data _ hne hz) _

theorem Added.wrote (h : Added sb k A s t) (hown : Owned sb k t) : Wrote sb k off [] s t := by
  constructor
  case owned => exact hown
  case inode =>
    obtain ⟨a, ha⟩ := h.grown.inode
    exact ⟨a, (s.inode k).copy.size, ha⟩
  case dinode =>
    intro i _
    rw [h.grown.dinode]
  case slots => exact h.grown.slots
  case others => exact fun i x hi => h.same i x fun he => absurd he hi
  case filled =>
    intro o hlo hhi
    rw [List.length_nil] at hhi
    omega
  case self => rw [h.bytes_eq, Bytes.write_nil]
  case rest => exact fun _ _ => h.bytes_eq

theorem bytes_setBlock (hplaces : places k t = places k s) (hblock : t.block = update s.block b c)
    (hne : places k s (i, .index (o / BSIZE)) ≠ b) : bytes k t i o = bytes k s i o := by
  unfold bytes
  rw [hplaces, hblock, update_of_ne hne]

theorem Owned.places_setBlock (h : Owned sb k s) (hb : places k s ((s.inode k).inum, .index (off / BSIZE)) = b)
    (hpos : b ≠ 0) : places k (s.setBlock b c) = places k s := by
  subst hb
  refine slot_block_congr fun i _ => update_of_ne (h.placed.ne hpos fun he => ?_) ..
  exact Slot.index_ne (off / BSIZE) (congrArg Prod.snd he).symm

theorem Owned.store (h : Owned sb k s) (hb : places k s ((s.inode k).inum, .index (off / BSIZE)) = b) (hpos : b ≠ 0)
    (hlen : off % BSIZE + bs.length ≤ BSIZE) (ht : t = s.setBlock b ((s.block b).write (off % BSIZE) bs)) :
    Wrote sb k off bs s t := by
  have hB : BSIZE = 1024 := rfl
  have hother : ∀ w, w ≠ ((s.inode k).inum, .index (off / BSIZE)) → places k s w ≠ b := by
    intro w hw
    rw [← hb] at hpos ⊢
    exact h.placed.ne hpos hw
  have hblock : t.block = update s.block b ((s.block b).write (off % BSIZE) bs) := by rw [ht]; rfl
  have hplaces : places k t = places k s := by
    rw [ht]
    exact h.places_setBlock hb hpos
  constructor
  case owned =>
    refine ⟨by rw [ht]; exact h.used, ?_⟩
    rw [hplaces, ht]
    exact h.placed
  case inode =>
    refine ⟨(s.inode k).copy.addrs, (s.inode k).copy.size, ?_⟩
    rw [ht, update_eq_self]
    rfl
  case dinode =>
    intro i _
    rw [ht]
    rfl
  case slots => exact fun w _ => congrFun hplaces w
  case others => exact fun i x _ => congrFun hplaces (i, x)
  case filled =>
    intro o hlo hhi
    have hdiv : o / BSIZE = off / BSIZE := by
      rw [hB] at hlen ⊢
      omega
    rw [hplaces, hdiv, hb]
    exact hpos
  case self =>
    funext o
    by_cases hdiv : o / BSIZE = off / BSIZE
    · have hold : bytes k s (s.inode k).inum o = s.block b (o % BSIZE) := by
        unfold bytes
        rw [hdiv, hb, if_neg hpos]
      have hnew : bytes k t (s.inode k).inum o = (s.block b).write (off % BSIZE) bs (o % BSIZE) := by
        unfold bytes
        rw [hplaces, hdiv, hb, if_neg hpos, hblock, update_self]
      have hle : off % BSIZE ≤ o % BSIZE ↔ off ≤ o := by
        rw [hB] at hdiv ⊢
        omega
      have hsub : o % BSIZE - off % BSIZE = o - off := by
        rw [hB] at hdiv ⊢
        omega
      rw [hnew]
      unfold Bytes.write
      rw [hold, hsub, if_congr hle rfl rfl]
    · rw [Bytes.write_other (by rw [hB] at hdiv hlen; omega)]
      refine bytes_setBlock hplaces hblock (hother _ fun he => hdiv ?_)
      exact Slot.index_inj (congrArg Prod.snd he)
  case rest =>
    intro i hi
    funext o
    exact bytes_setBlock hplaces hblock (hother _ fun he => hi (congrArg Prod.fst he))

theorem needed_subset_wanted (hn : 0 < n) : needed (off / BSIZE) ⊆ wanted off n := by
  intro x hx
  exact Finset.mem_biUnion.mpr ⟨0, Finset.mem_range.mpr hn, hx⟩

theorem wanted_subset (hle : m ≤ n) : wanted (off + m) (n - m) ⊆ wanted off n := by
  intro x hx
  obtain ⟨i, hi, hx⟩ := Finset.mem_biUnion.mp hx
  have hi := Finset.mem_range.mp hi
  rw [Nat.add_assoc] at hx
  exact Finset.mem_biUnion.mpr ⟨m + i, Finset.mem_range.mpr (by omega), hx⟩

theorem wanted_mono (hle : m ≤ n) : wanted off m ⊆ wanted off n :=
  Finset.biUnion_subset_biUnion_of_subset_left _ (Finset.range_subset_range.mpr hle)

theorem freeCount_congr (h : t.bit = s.bit) : freeCount sb t = freeCount sb s := by
  unfold freeCount
  rw [h]

theorem Balanced.mono (h : Balanced sb k W s t) (hW : W ⊆ W') : Balanced sb k W' s t :=
  fun V hV => h V (hW.trans hV)

theorem Balanced.trans (h : Balanced sb k W s t) (h' : Balanced sb k W t u) : Balanced sb k W s u := by
  intro V hV
  have := h V hV
  have := h' V hV
  omega

theorem Balanced.of_places (hbit : t.bit = s.bit) (hinum : (t.inode k).inum = (s.inode k).inum)
    (h : ∀ x, places k t ((s.inode k).inum, x) = places k s ((s.inode k).inum, x)) : Balanced sb k W s t := by
  intro V _
  unfold missing
  rw [freeCount_congr hbit, hinum]
  simp only [h]

theorem Balanced.short {V : Finset Slot} (h : Balanced sb k W s t) (hW : W ⊆ V) (hW' : W' ⊆ V)
    (hlt : freeCount sb t < (missing k t W').card) : freeCount sb s < (missing k s V).card := by
  have := h V hW
  have := Finset.card_le_card (missing_subset (k := k) (s := t) hW')
  omega

theorem Added.balanced (h : Added sb k A s t) (hA : A ⊆ W) : Balanced sb k W s t := by
  intro V hV
  have hsub : A ⊆ missing k s V := fun x hx => Finset.mem_filter.mpr ⟨hV (hA hx), h.empty x hx⟩
  have hleft : missing k t V = missing k s V \ A := by
    ext x
    rw [Finset.mem_sdiff, missing, missing, Finset.mem_filter, Finset.mem_filter, h.grown.inum]
    by_cases hx : x ∈ A
    · simp [hx, h.full x hx]
    · simp [hx, h.same _ x fun _ => hx]
  have hcard := Finset.card_sdiff_add_card_eq_card hsub
  rw [hleft, h.count]
  omega

def written (off m n : Nat) : Nat := if n ≤ m then n else cut off m

theorem cut_zero (h : off % BSIZE + m < BSIZE) : cut off m = 0 := by
  unfold cut
  have hB : BSIZE = 1024 := rfl
  rw [hB] at h ⊢
  omega

theorem cut_block (h : BSIZE - off % BSIZE ≤ m) :
    cut off m = BSIZE - off % BSIZE + cut (off + (BSIZE - off % BSIZE)) (m - (BSIZE - off % BSIZE)) := by
  unfold cut
  have hB : BSIZE = 1024 := rfl
  rw [hB] at h ⊢
  omega

theorem written_fail (hm : min n (BSIZE - off % BSIZE) = m) (h : l < m) : written off l n = 0 := by
  rw [written, if_neg (by omega), cut_zero (by omega)]

theorem written_step (hm : min n (BSIZE - off % BSIZE) = m) (h : m ≤ l) :
    written off l n = m + written (off + m) (l - m) (n - m) := by
  unfold written
  by_cases hn : n ≤ l
  · rw [if_pos hn, if_pos (by omega)]
    omega
  · have hblock : m = BSIZE - off % BSIZE := by omega
    rw [if_neg hn, if_neg (by omega), hblock]
    exact cut_block (by omega)

theorem writeLoop_spec (h : Owned sb k s) (hmax : off + (n - tot) ≤ MAXFILE * BSIZE) (hfuel : n - tot ≤ fuel)
    (htot : tot ≤ src.length) (htn : tot ≤ n) :
    Post (fun e => e = "balloc: out of blocks" ∧ freeCount sb s < (missing k s (wanted off (n - tot))).card)
      (writeLoop sb k src n fuel tot off) s fun r t =>
        Wrote sb k off ((src.drop tot).take (n - tot)) s t ∧ t.dinode = s.dinode ∧
          (t.inode k).copy.size = (s.inode k).copy.size ∧
          r = (tot + written off (src.length - tot) (n - tot), off + written off (src.length - tot) (n - tot)) ∧
          (src.length < n → places k t ((s.inode k).inum, .index (r.2 / BSIZE)) ≠ 0) ∧
          Balanced sb k (wanted off (n - tot)) s t := by
  induction fuel generalizing s tot off with
  | zero =>
    have hz : n - tot = 0 := by omega
    have hfull : ¬ src.length < n := by omega
    rw [hz]
    refine ⟨(Added.refl sb k s).wrote h, rfl, rfl, ?_, fun hlt => absurd hlt hfull, fun _ _ => rfl⟩
    simp [written]
  | succ fuel ih =>
    unfold writeLoop
    by_cases hlt : tot < n
    · have hmod := Nat.mod_lt off BSIZE_pos
      have hbn : off / BSIZE < MAXFILE := Nat.div_lt_of_lt_mul (by rw [Nat.mul_comm]; omega)
      have hneed : needed (off / BSIZE) ⊆ wanted off (n - tot) := needed_subset_wanted (by omega)
      have hcard := Finset.card_le_card (missing_subset (k := k) (s := s) hneed)
      rw [if_pos hlt]
      refine Post.bind ((bmap_spec h hbn).mono_panic fun e he => ⟨he.1, by omega⟩) fun b t hbt => ?_
      obtain ⟨hb, hpos, hown, hadd⟩ := hbt
      have hinum := hadd.grown.inum
      generalize hm : min (n - tot) (BSIZE - off % BSIZE) = m
      rw [post_change_bind]
      generalize hu : t.setBlock b ((t.block b).write (off % BSIZE) ((src.drop tot).take m)) = u
      have hstore : Wrote sb k off ((src.drop tot).take m) t u := by
        refine hown.store (by rwa [hinum]) hpos ?_ hu.symm
        rw [List.length_take]
        omega
      have hgrow : Wrote sb k off [] s t := hadd.wrote hown
      have hwrote : Wrote sb k off ((src.drop tot).take m) s u := hgrow.trans hstore
      have hdinode : u.dinode = s.dinode := by
        rw [← hu, ← hadd.grown.dinode]
        rfl
      have hsize : (u.inode k).copy.size = (s.inode k).copy.size := by
        obtain ⟨a, ha⟩ := hadd.grown.copy
        rw [← hu]
        exact congrArg (fun v => v.copy.size) ha
      have hbal : Balanced sb k (wanted off (n - tot)) s u := by
        refine (hadd.balanced ((Finset.filter_subset _ _).trans hneed)).trans ?_
        rw [← hu]
        exact .of_places rfl rfl fun x => congrFun (hown.places_setBlock (by rwa [hinum]) hpos) _
      by_cases hfail : src.length < tot + m
      · have hlen : (src.drop tot).length < m := by
          rw [List.length_drop]
          omega
        have htake : (src.drop tot).take m = (src.drop tot).take (n - tot) := by
          rw [List.take_of_length_le (by omega), List.take_of_length_le (by omega)]
        have hzero : written off (src.length - tot) (n - tot) = 0 := written_fail hm (by omega)
        rw [if_pos hfail, ← htake, hzero]
        refine ⟨hwrote, hdinode, hsize, rfl, fun _ => ?_, hbal⟩
        rw [hstore.slots _ (by rwa [hb])]
        rwa [hb]
      · have hlen : ((src.drop tot).take m).length = m := by
          rw [List.length_take, List.length_drop]
          omega
        have hrest : n - tot - m = n - (tot + m) := by omega
        have hlater : wanted (off + m) (n - (tot + m)) ⊆ wanted off (n - tot) := hrest ▸ wanted_subset (by omega)
        have hsplit : (src.drop tot).take (n - tot) = (src.drop tot).take m ++ (src.drop (tot + m)).take (n - (tot + m)) := by
          rw [show n - tot = m + (n - (tot + m)) by omega, List.take_add, List.drop_drop]
        have hstep := written_step hm (show m ≤ src.length - tot by omega)
        rw [hrest, show src.length - tot - m = src.length - (tot + m) by omega] at hstep
        rw [if_neg hfail]
        have hrec := @ih u (off + m) (tot + m) hwrote.owned (by omega) (by omega) (by omega) (by omega)
        refine (hrec.mono_panic fun e he => ⟨he.1, hbal.short (Finset.Subset.refl _) hlater he.2⟩).mono fun r v hrv => ?_
        obtain ⟨hv, hvd, hvs, hr, hfill, hvbal⟩ := hrv
        have hinum' := hwrote.inum
        refine ⟨?_, hvd.trans hdinode, hvs.trans hsize, ?_, ?_, hbal.trans (hvbal.mono hlater)⟩
        · rw [hsplit]
          exact hwrote.trans (by rwa [hlen])
        · rw [hr, hstep, Nat.add_assoc, Nat.add_assoc]
        · rwa [hinum'] at hfill
    · have hz : n - tot = 0 := by omega
      have hfull : ¬ src.length < n := by omega
      rw [if_neg hlt, hz]
      refine ⟨(Added.refl sb k s).wrote h, rfl, rfl, ?_, fun hlt => absurd hlt hfull, fun _ _ => rfl⟩
      simp [written]

theorem slot_congr_addrs {D D' : Nat → Dinode} {blk : Nat → Bytes}
    (h : ∀ i, (D' i).type = (D i).type ∧ (D' i).addrs = (D i).addrs) : slot D' blk = slot D blk := by
  funext w
  obtain ⟨i, x⟩ := w
  obtain ⟨htype, haddrs⟩ := h i
  unfold slot
  rw [htype]
  cases x <;> simp only [Dinode.slot, haddrs]

theorem places_resize
    (hinode : u.inode = update t.inode k
      { t.inode k with copy := { (t.inode k).copy with size := z } })
    (hdinode : u.dinode = update t.dinode (t.inode k).inum (u.inode k).copy)
    (hblock : u.block = t.block) : places k u = places k t := by
  unfold places
  rw [hblock]
  refine slot_congr_addrs fun i => ?_
  unfold cur
  rw [hdinode, hinode, update_self]
  by_cases hi : i = (t.inode k).inum
  · subst hi
    simp
  · simp [hi]

theorem Wrote.resize (h : Wrote sb k off bs s t)
    (hinode : u.inode = update t.inode k
      { t.inode k with copy := { (t.inode k).copy with size := z } })
    (hdinode : u.dinode = update t.dinode (t.inode k).inum (u.inode k).copy) (hbit : u.bit = t.bit)
    (hblock : u.block = t.block) : Wrote sb k off bs s u := by
  have hplaces : places k u = places k t := places_resize hinode hdinode hblock
  have hbytes : ∀ i, bytes k u i = bytes k t i := by
    intro i
    unfold bytes
    rw [hplaces, hblock]
  constructor
  case owned =>
    refine ⟨?_, ?_⟩
    · rw [hinode, update_self]
      exact h.owned.used
    · rw [hplaces, hbit]
      exact h.owned.placed
  case inode =>
    obtain ⟨a, z', ha⟩ := h.inode
    refine ⟨a, z, ?_⟩
    rw [hinode, ha, update_self, update_idem]
  case dinode =>
    intro i hi
    rw [hdinode, update_of_ne (by rwa [h.inum]), h.dinode i hi]
  case slots => rw [hplaces]; exact h.slots
  case others => rw [hplaces]; exact h.others
  case filled => rw [hplaces]; exact h.filled
  case self => rw [hbytes, h.self]
  case rest =>
    intro i hi
    rw [hbytes, h.rest i hi]

theorem size_max (d : Dinode) (x : Nat) :
    (if d.size < x then { d with size := x } else d) = { d with size := max d.size x } := by
  split
  next hlt => rw [Nat.max_eq_right (Nat.le_of_lt hlt)]
  next hge => rw [Nat.max_eq_left (Nat.le_of_not_lt hge)]

theorem writei_spec (h : Owned sb k s) (hoff : off ≤ (s.inode k).copy.size) (hmax : off + n ≤ MAXFILE * BSIZE) :
    Post (fun e => e = "balloc: out of blocks" ∧ freeCount sb s < (missing k s (wanted off n)).card)
      (writei sb k src off n) s fun r t =>
        r = some (written off src.length n) ∧ Wrote sb k off (src.take n) s t ∧
          (t.inode k).copy.size = max (s.inode k).copy.size (off + written off src.length n) ∧
          t.dinode (s.inode k).inum = (t.inode k).copy ∧
          (src.length < n → places k t ((s.inode k).inum, .index ((off + written off src.length n) / BSIZE)) ≠ 0) ∧
          Balanced sb k (wanted off n) s t := by
  have hM : MAXFILE * BSIZE = 274432 := rfl
  unfold writei
  rw [post_read_bind, if_neg (by omega), if_neg (by omega)]
  have hloop := @writeLoop_spec sb k s off n 0 n src h (by omega) (by omega) (Nat.zero_le _) (Nat.zero_le _)
  rw [Nat.sub_zero, Nat.sub_zero, List.drop_zero, Nat.zero_add] at hloop
  refine Post.bind hloop fun r t hrt => ?_
  obtain ⟨hwrote, hdinode, hsize, hr, hfill, hbal⟩ := hrt
  subst hr
  dsimp only at hfill ⊢
  have hinum := hwrote.inum
  rw [edit, post_change_bind, iupdate, post_change_bind]
  dsimp only [Volume.setInode]
  rw [update_self, size_max]
  generalize hu : (Volume.mk _ _ _ _) = u
  have hinode : u.inode = update t.inode k { t.inode k with copy := { (t.inode k).copy with
      size := max (t.inode k).copy.size (off + written off src.length n) } } := by rw [← hu]
  have hself : (u.inode k).copy = { (t.inode k).copy with
      size := max (t.inode k).copy.size (off + written off src.length n) } := by rw [hinode, update_self]
  have hdinode' : u.dinode = update t.dinode (t.inode k).inum (u.inode k).copy := by rw [hself, ← hu]
  have hblock : u.block = t.block := by rw [← hu]
  have hbit : u.bit = t.bit := by rw [← hu]
  have hplaces := places_resize hinode hdinode' hblock
  refine ⟨rfl, hwrote.resize hinode hdinode' hbit hblock, ?_, ?_, fun hlt => ?_, hbal.trans ?_⟩
  · rw [hself, hsize]
  · rw [hdinode', hinum, update_self]
  · rw [hplaces]
    exact hfill hlt
  · exact .of_places hbit (by rw [hinode, update_self]) fun x => congrFun hplaces _

end TweakedXv6.Fs
