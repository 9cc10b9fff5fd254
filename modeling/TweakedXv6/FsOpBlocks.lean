import Mathlib.Data.Finset.Dedup
import TweakedXv6.FsTrans

namespace TweakedXv6.Fs.Trans

open Files Traced User

def MAXOPBLOCKS : Nat := 10

/-- Apart from `m` blocks and their bits only the indirect block of the inode at `k` and its bit are
logged. -/
def Spent (L : Layout) (k : Fin NINODE) (s : Volume) (m : Nat) (l : List Nat) : Prop :=
  ∃ (D : List Nat) (c : Nat), D.length ≤ 2 * m ∧
    ((s.inode k).copy.addrs NDIRECT ≠ 0 → c = (s.inode k).copy.addrs NDIRECT) ∧
    ∀ x ∈ l, x ∈ D ∨ x = c ∨ x = BBLOCK L c

variable {L : Layout} {sb : Superblock} {k : Fin NINODE} {pt : Pages} {mem : Nat → UInt8}
  {a b bn m n off src tot fuel : Nat} {s t : Volume} {l l' : List Nat}

theorem Spent.nil : Spent L k s m [] := ⟨[], (s.inode k).copy.addrs NDIRECT, by simp, fun _ => rfl, by simp⟩

theorem free_ne_zero (hzero : s.bit 0 = true) (hb : s.bit b = false) : b ≠ 0 := by
  rintro rfl
  rw [hzero] at hb
  cases hb

theorem balloc_pos (hzero : s.bit 0 = true) : Ends (balloc L sb) s (· = []) fun l b t =>
    l = [BBLOCK L b, b] ∧ t.bit 0 = true ∧ t.inode = s.inode := by
  refine balloc_ends.mono (fun _ h => h) fun l b t hbt => ?_
  obtain ⟨hl, hb, _, hbit, hinode⟩ := hbt
  refine ⟨hl, ?_, hinode⟩
  rw [hbit, Function.update_of_ne (free_ne_zero hzero hb).symm, hzero]

theorem addrAlloc_pos (hzero : s.bit 0 = true) : Ends (addrAlloc L sb k a) s (· = []) fun l c t =>
    c ≠ 0 ∧ t.bit 0 = true ∧ (t.inode k).copy.addrs = Function.update (s.inode k).copy.addrs a c ∧
      ((s.inode k).copy.addrs a ≠ 0 → c = (s.inode k).copy.addrs a) ∧ ∀ x ∈ l, x = c ∨ x = BBLOCK L c := by
  refine addrAlloc_ends.mono (fun _ h => h) fun l c t hct => ?_
  obtain ⟨haddrs, ⟨hne, hc, rfl, rfl⟩ | ⟨hz, rfl, hb, _, hbit⟩⟩ := hct
  · exact ⟨hc ▸ hne, hzero, haddrs, fun _ => hc, by simp⟩
  · have hpos := free_ne_zero hzero hb
    refine ⟨hpos, ?_, haddrs, fun hne => absurd hz hne, by simp⟩
    rw [hbit, Function.update_of_ne hpos.symm, hzero]

theorem bmap_ends (hzero : s.bit 0 = true) : Ends (bmap L sb k bn) s (Spent L k s 0) fun l b t =>
    t.bit 0 = true ∧
      ((s.inode k).copy.addrs NDIRECT ≠ 0 → (t.inode k).copy.addrs NDIRECT = (s.inode k).copy.addrs NDIRECT) ∧
      ∀ x ∈ l, x ∈ [b, BBLOCK L b] ∨ (t.inode k).copy.addrs NDIRECT ≠ 0 ∧
        (x = (t.inode k).copy.addrs NDIRECT ∨ x = BBLOCK L ((t.inode k).copy.addrs NDIRECT)) := by
  unfold bmap
  split
  next hlt =>
    refine (addrAlloc_pos hzero).mono ?_ fun l c t hct => ?_
    · rintro _ rfl
      exact Spent.nil
    · obtain ⟨_, hbit, haddrs, _, hlog⟩ := hct
      refine ⟨hbit, fun _ => ?_, fun x hx => .inl (by simpa using hlog x hx)⟩
      rw [haddrs, Function.update_of_ne (Nat.ne_of_gt hlt)]
  next hge =>
    split
    next hj =>
      refine Ends.bind ((addrAlloc_pos hzero).mono ?_ fun _ _ _ hq => hq) fun l c t hct => ?_
      · rintro _ rfl
        exact Spent.nil
      obtain ⟨hpos, hbit, haddrs, hsame, hlog⟩ := hct
      have hself : (t.inode k).copy.addrs NDIRECT = c := by rw [haddrs, Function.update_self]
      rw [ends_quiet_bind Prog.run_read]
      split
      next =>
        refine Ends.bind ((balloc_pos hbit).mono ?_ fun _ _ _ hq => hq) fun l' b u hbu => ?_
        · rintro _ rfl
          exact ⟨[], c, by simp, hsame, fun x hx => .inr (hlog x (by simpa using hx))⟩
        obtain ⟨rfl, hbit', hinode⟩ := hbu
        rw [ends_quiet_bind Prog.run_change, logWrite, ends_emit_bind, ends_ret]
        have hself' : ((u.setBlock c ((u.block c).setWord (bn - NDIRECT) b)).inode k).copy.addrs NDIRECT = c := by
          show (u.inode k).copy.addrs NDIRECT = c
          rw [hinode, hself]
        rw [hself']
        refine ⟨hbit', hsame, fun x hx => ?_⟩
        · rcases List.mem_append.mp hx with hx | hx
          · exact .inr ⟨hpos, hlog x hx⟩
          · have hx : x = BBLOCK L b ∨ x = b ∨ x = c := by simpa using hx
            rcases hx with rfl | rfl | rfl
            · simp
            · simp
            · exact .inr ⟨hpos, .inl rfl⟩
      next =>
        rw [ends_ret]
        refine ⟨hbit, fun hne => hself.trans (hsame hne), fun x hx => .inr ?_⟩
        rw [hself]
        exact ⟨hpos, hlog x (by simpa using hx)⟩
    next => exact Spent.nil

theorem Spent.subset (h : Spent L k s m l) (hsub : ∀ x ∈ l', x ∈ l) : Spent L k s m l' := by
  obtain ⟨D, c, hlen, hc, hmem⟩ := h
  exact ⟨D, c, hlen, hc, fun x hx => hmem x (hsub x hx)⟩

theorem Spent.mono (h : Spent L k s m l) (hle : m ≤ n) : Spent L k s n l := by
  obtain ⟨D, c, hlen, hc, hmem⟩ := h
  exact ⟨D, c, by omega, hc, hmem⟩

theorem Spent.round
    (hsame : (s.inode k).copy.addrs NDIRECT ≠ 0 → (t.inode k).copy.addrs NDIRECT = (s.inode k).copy.addrs NDIRECT)
    (hlog : ∀ x ∈ l, x ∈ [b, BBLOCK L b] ∨ (t.inode k).copy.addrs NDIRECT ≠ 0 ∧
      (x = (t.inode k).copy.addrs NDIRECT ∨ x = BBLOCK L ((t.inode k).copy.addrs NDIRECT)))
    (h : Spent L k t m l') : Spent L k s (m + 1) (l ++ b :: l') := by
  obtain ⟨D, c, hlen, hc, hmem⟩ := h
  refine ⟨[b, BBLOCK L b] ++ D, c, ?_, fun hne => ?_, fun x hx => ?_⟩
  · rw [List.length_append]
    simp
    omega
  · rw [hc (by rwa [hsame hne]), hsame hne]
  · rcases List.mem_append.mp hx with hx | hx
    · rcases hlog x hx with hb | ⟨hne, hx⟩
      · exact .inl (List.mem_append_left D hb)
      · rw [hc hne]
        exact .inr hx
    · rcases List.mem_cons.mp hx with rfl | hx
      · exact .inl (by simp)
      · exact (hmem x hx).imp_left (List.mem_append_right _)

theorem writeLoop_ends (hzero : s.bit 0 = true) (halign : n ≤ tot ∨ off % BSIZE = 0) (hm : n - tot ≤ m * BSIZE) :
    Ends (writeLoop L sb k pt mem src n fuel tot off) s (Spent L k s m) fun l _ _ => Spent L k s m l := by
  induction fuel generalizing s tot off m with
  | zero => exact Spent.nil
  | succ fuel ih =>
    unfold writeLoop
    by_cases hlt : tot < n
    · obtain ⟨m, rfl⟩ : ∃ j, m = j + 1 := Nat.exists_eq_succ_of_ne_zero (by rintro rfl; omega)
      have hoff : off % BSIZE = 0 := halign.resolve_left (by omega)
      rw [if_pos hlt]
      refine Ends.bind ((bmap_ends hzero).mono (fun _ h => h.mono (Nat.zero_le _)) fun _ _ _ hq => hq) fun l b t hbt => ?_
      obtain ⟨hbit, hsame, hlog⟩ := hbt
      dsimp only
      rw [ends_quiet_bind Prog.run_change]
      generalize hc : min (n - tot) (BSIZE - off % BSIZE) = c
      split
      next =>
        have hround := Spent.round hsame hlog (Spent.nil (m := m))
        exact hround.subset fun x hx => List.mem_append_left _ (by simpa using hx)
      next =>
        have hB : BSIZE = 1024 := rfl
        rw [logWrite, ends_emit_bind]
        rw [hB] at hoff hm hc
        have hnext : n ≤ tot + c ∨ (off + c) % BSIZE = 0 := by
          rw [hB]
          omega
        have hbit' : (t.setBlock b ((t.block b).write (off % BSIZE) (copyin pt mem (src + tot) c).1)).bit 0 = true := hbit
        refine (ih hbit' hnext (show _ ≤ m * BSIZE by rw [hB]; omega)).mono ?_ ?_
        · exact fun l' h => Spent.round hsame hlog h
        · exact fun l' _ _ h => Spent.round hsame hlog h
    · rw [if_neg hlt]
      exact Spent.nil

theorem bmap_there_log (h : (s.inode k).copy.slot s.block (.index bn) ≠ 0) :
    Ends (bmap L sb k bn) s (fun _ => False) fun l _ t => l = [] ∧ t = s := by
  unfold bmap
  split
  next hlt =>
    have ha : (s.inode k).copy.addrs bn ≠ 0 := by
      rwa [Slot.index, if_pos hlt, Dinode.slot, if_pos (Nat.le_of_lt hlt)] at h
    rw [addrAlloc, ends_quiet_bind Prog.run_read, if_neg ha]
    exact ⟨rfl, rfl⟩
  next hlt =>
    rw [Slot.index, if_neg hlt, Dinode.slot] at h
    split at h
    next hind =>
      rw [if_pos hind.1, addrAlloc, ends_bind, ends_quiet_bind Prog.run_read, if_neg hind.2, ends_ret,
        ends_quiet_bind Prog.run_read, if_neg h]
      exact ⟨rfl, rfl⟩
    next => exact absurd rfl h

def Few (m : Nat) (l : List Nat) : Prop := ∃ D : List Nat, D.length ≤ m ∧ ∀ x ∈ l, x ∈ D

theorem Spent.few (h : Spent L k s m l) : Few (2 * m + 2) l := by
  obtain ⟨D, c, hlen, _, hmem⟩ := h
  refine ⟨c :: BBLOCK L c :: D, ?_, fun x hx => ?_⟩
  · simp
    omega
  · rcases hmem x hx with hx | rfl | rfl <;> simp [*]

theorem Few.cons (h : Few m l) : Few (m + 1) (b :: l) := by
  obtain ⟨D, hlen, hmem⟩ := h
  refine ⟨b :: D, by simpa using hlen, fun x hx => ?_⟩
  rcases List.mem_cons.mp hx with rfl | hx
  · simp
  · simp [hmem x hx]

theorem Few.append (h : Few m l) (h' : Few n l') : Few (m + n) (l ++ l') := by
  obtain ⟨D, hlen, hmem⟩ := h
  obtain ⟨D', hlen', hmem'⟩ := h'
  refine ⟨D ++ D', by rw [List.length_append]; omega, fun x hx => ?_⟩
  rcases List.mem_append.mp hx with hx | hx
  · exact List.mem_append_left _ (hmem x hx)
  · exact List.mem_append_right _ (hmem' x hx)

theorem Few.mono (h : Few m l) (hle : m ≤ n) : Few n l := by
  obtain ⟨D, hlen, hmem⟩ := h
  exact ⟨D, by omega, hmem⟩

theorem Few.card (h : Few m l) : l.toFinset.card ≤ m := by
  obtain ⟨D, hlen, hmem⟩ := h
  have hsub : l.toFinset ⊆ D.toFinset := by
    intro x hx
    exact List.mem_toFinset.mpr (hmem x (List.mem_toFinset.mp hx))
  have hcard := Finset.card_le_card hsub
  have hdedup := List.toFinset_card_le D
  omega

theorem writeLoop_few (hzero : s.bit 0 = true) (hwhole : Whole (s.inode k).copy s.block (s.inode k).copy.size)
    (hoff : off ≤ (s.inode k).copy.size) (hn : n ≤ 3 * BSIZE) :
    Ends (writeLoop L sb k pt mem src n n 0 off) s (Few 9) fun l _ _ => Few 9 l := by
  by_cases halign : off % BSIZE = 0
  · have hloop : Ends (writeLoop L sb k pt mem src n n 0 off) s (Spent L k s 3) fun l _ _ => Spent L k s 3 l :=
      writeLoop_ends hzero (.inr halign) (by omega)
    exact hloop.mono (fun l h => h.few.mono (by decide)) fun l _ _ h => h.few.mono (by decide)
  · cases n with
    | zero => exact ⟨[], by simp, by simp⟩
    | succ n =>
      have hB : BSIZE = 1024 := rfl
      have hthere : (s.inode k).copy.slot s.block (.index (off / BSIZE)) ≠ 0 := by
        refine hwhole _ ?_
        rw [hB] at halign ⊢
        omega
      unfold writeLoop
      rw [if_pos (Nat.succ_pos n)]
      refine Ends.bind ((bmap_there_log hthere).mono (fun _ h => h.elim) fun _ _ _ hq => hq) fun l b t hbt => ?_
      obtain ⟨rfl, rfl⟩ := hbt
      dsimp only
      rw [ends_quiet_bind Prog.run_change]
      generalize hc : min (n + 1 - 0) (BSIZE - off % BSIZE) = c
      split
      next => exact ⟨[], by simp, by simp⟩
      next =>
        have hnext : n + 1 ≤ 0 + c ∨ (off + c) % BSIZE = 0 := by
          rw [hB] at hc ⊢
          omega
        rw [logWrite, ends_emit_bind]
        have hbit' : (t.setBlock b ((t.block b).write (off % BSIZE) (copyin pt mem (src + 0) c).1)).bit 0 = true := hzero
        refine (writeLoop_ends hbit' hnext (m := 3) (by omega)).mono ?_ ?_
        · exact fun l h => h.few.cons
        · exact fun l _ _ h => h.few.cons

def maxChunk : Nat := (MAXOPBLOCKS - 1 - 1 - 2) / 2 * BSIZE

/-- A `writei` of `filewrite` logs at most `MAXOPBLOCKS` blocks, also if it panics. -/
theorem writei_logs_few (L : Layout) (sb : Superblock) (k : Fin NINODE) (pt : Pages) (mem : Nat → UInt8) (s : Volume)
    (src off n : Nat) (hzero : s.bit 0 = true) (hwhole : Whole (s.inode k).copy s.block (s.inode k).copy.size)
    (hoff : off ≤ (s.inode k).copy.size) (hn : n ≤ maxChunk) :
    (writei L sb k pt mem src off n s).1.toFinset.card ≤ MAXOPBLOCKS := by
  refine Few.card (Ends.trace ?_)
  unfold writei
  rw [ends_quiet_bind Prog.run_read]
  split
  next => exact ⟨[], by simp, by simp⟩
  next =>
    split
    next => exact ⟨[], by simp, by simp⟩
    next =>
      refine Ends.bind ((writeLoop_few hzero hwhole hoff hn).mono (fun l h => h.mono (by decide)) fun _ _ _ hq => hq)
        fun l r t hfew => ?_
      rw [edit, ends_quiet_bind Prog.run_change]
      exact hfew.append (n := 1) ⟨[_], by simp, fun x hx => hx⟩

theorem writei_logs_few_empty :
    (writei ⟨2, 4⟩ smallDisk ⟨0, zero_lt_NINODE⟩ (fun va => if va = 0 then some 65536 else none) (fun _ => 7) 0 0 3072
      emptyFile).1.toFinset.card ≤ MAXOPBLOCKS := by
  refine writei_logs_few _ _ _ _ _ _ _ _ _ rfl (fun bn hbn => ?_) (Nat.zero_le _) (by decide)
  exact absurd hbn (Nat.not_lt_zero _)

end TweakedXv6.Fs.Trans
