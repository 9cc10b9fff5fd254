import TweakedXv6.FsTrans

namespace TweakedXv6.Fs.Trans

open Files Traced User
open Function (update update_self update_of_ne)

/-- The blocks of the bitmap and of the inodes are not data blocks. -/
structure Layout.Fits (L : Layout) (sb : Superblock) : Prop where
  bitmap : ∀ b, b < sb.size → ¬ sb.Data (BBLOCK L b)
  inodes : ∀ i, i < sb.ninodes → ¬ sb.Data (IBLOCK L i)

def seen (k : Fin NINODE) (s : Volume) (o : Nat) : Option UInt8 :=
  if o < (s.inode k).copy.size then some (bytes k s (s.inode k).inum o) else none

def Same (home : Nat → Bytes) (s : Volume) (b : Nat) : Prop := ∀ j, j < BSIZE → s.block b j = home b j

/-- When `writei` returns `r`, the file is changed only in the bytes reported, and the block that was
being filled is in the log or as on the disk. -/
structure Contained (home : Nat → Bytes) (log : List Nat) (k : Fin NINODE) (off : Nat) (s : Volume) (r : Option Nat)
    (t : Volume) : Prop where
  file : ∀ o, ¬ (off ≤ o ∧ o < off + r.getD 0) → seen k t o = seen k s o
  cache : places k t ((s.inode k).inum, .index ((off + r.getD 0) / BSIZE)) ∈ log ∨
    Same home t (places k t ((s.inode k).inum, .index ((off + r.getD 0) / BSIZE)))

def refused (s : Volume) (k : Fin NINODE) (off n : Nat) : Prop :=
  (s.inode k).copy.size < off ∨ (off + n) % 4294967296 < off ∨ MAXFILE * BSIZE < off + n

/-- The write is refused, or all of it can be read; or each byte copied before `copyin` fails is the one
that the file has, except behind its end in a block that is new or in the log. -/
def Harmless (log : List Nat) (k : Fin NINODE) (pt : Pages) (mem : Nat → UInt8) (src off n : Nat) (s : Volume) : Prop :=
  refused s k off n ∨ n ≤ reach pt src n ∨
    ∀ i, cut off (reach pt src n) ≤ i → i < reach pt src n →
      mem (translate pt (src + i)) = bytes k s (s.inode k).inum (off + i) ∨
      (s.inode k).copy.size ≤ off + i ∧
        (places k s ((s.inode k).inum, .index ((off + reach pt src n) / BSIZE)) = 0 ∨
          places k s ((s.inode k).inum, .index ((off + reach pt src n) / BSIZE)) ∈ log)

/-- The blocks logged are outside the data region, or new, or at slots that `X` has; all new blocks are
among them. -/
structure Logged (sb : Superblock) (k : Fin NINODE) (X : Slot → Prop) (l : List Nat) (s t : Volume) : Prop where
  where_ : ∀ x ∈ l, ¬ sb.Data x ∨ s.bit x = false ∨ ∃ y, X y ∧ places k t ((s.inode k).inum, y) = x ∧ x ≠ 0
  new : ∀ x, s.bit x = false → t.bit x = true → x ∈ l
  kept : ∀ x, s.bit x = true → t.bit x = true

variable {L : Layout} {sb : Superblock} {k : Fin NINODE} {pt : Pages} {mem : Nat → UInt8} {home : Nat → Bytes}
  {a b bn i m n off src tot fuel o : Nat} {s t u : Volume} {l l' log : List Nat} {X Y : Slot → Prop}
  {r : Option Nat} {y : Slot}

theorem Logged.none (hbit : t.bit = s.bit) : Logged sb k X [] s t := by
  refine ⟨by simp, fun x hx hx' => ?_, fun x hx => by rwa [hbit]⟩
  rw [hbit, hx] at hx'
  cases hx'

theorem Logged.trans (h : Logged sb k X l s t) (h' : Logged sb k Y l' t u)
    (hinum : (t.inode k).inum = (s.inode k).inum)
    (hX : ∀ y, X y → Y y ∧ ∀ i, places k t (i, y) ≠ 0 → places k u (i, y) = places k t (i, y)) :
    Logged sb k Y (l ++ l') s u := by
  refine ⟨fun x hx => ?_, fun x hx hx' => ?_, fun x hx => h'.kept x (h.kept x hx)⟩
  · rcases List.mem_append.mp hx with hx | hx
    · rcases h.where_ x hx with hx | hx | ⟨y, hy, hp, hne⟩
      · exact .inl hx
      · exact .inr (.inl hx)
      · exact .inr (.inr ⟨y, (hX y hy).1, by rw [(hX y hy).2 _ (by rwa [hp]), hp], hne⟩)
    · rcases h'.where_ x hx with hx | hx | ⟨y, hy, hp, hne⟩
      · exact .inl hx
      · refine .inr (.inl ?_)
        by_contra hno
        rw [h.kept x (by simpa using hno)] at hx
        cases hx
      · exact .inr (.inr ⟨y, hy, by rwa [hinum] at hp, hne⟩)
  · by_cases ht : t.bit x = true
    · exact List.mem_append_left _ (h.new x hx ht)
    · exact List.mem_append_right _ (h'.new x (by simpa using ht) hx')

theorem Logged.alloc (hfit : L.Fits sb) (hb : s.bit b = false) (hlt : b < sb.size)
    (hbit : t.bit = update s.bit b true) : Logged sb k X [BBLOCK L b, b] s t := by
  refine ⟨fun x hx => ?_, fun x hx hx' => ?_, fun x hx => ?_⟩
  · have hx : x = BBLOCK L b ∨ x = b := by simpa using hx
    rcases hx with rfl | rfl
    · exact .inl (hfit.bitmap b hlt)
    · exact .inr (.inl hb)
  · by_cases hxb : x = b
    · simp [hxb]
    · rw [hbit, update_of_ne hxb, hx] at hx'
      cases hx'
  · by_cases hxb : x = b
    · simp [hbit, hxb]
    · rwa [hbit, update_of_ne hxb]

theorem Logged.one (hy : X y) (hp : places k t ((s.inode k).inum, y) = b) (hb : b ≠ 0)
    (hbit : t.bit = s.bit) : Logged sb k X [b] s t := by
  refine ⟨fun x hx => ?_, fun x hx hx' => ?_, fun x hx => ?_⟩
  · rw [List.mem_singleton.mp hx]
    exact .inr (.inr ⟨y, hy, hp, hb⟩)
  · rw [hbit, hx] at hx'
    cases hx'
  · rwa [hbit]

theorem addrAlloc_log (h : Owned sb k s) (hfit : L.Fits sb) : Ends (addrAlloc L sb k a) s (fun _ => True) fun l c t =>
      Logged sb k X l s t ∧ (t.inode k).copy.addrs a = c ∧ c ≠ 0 := by
  refine addrAlloc_ends.mono (fun _ _ => trivial) fun l c t hct => ?_
  obtain ⟨haddrs, ⟨hne, hc, rfl, rfl⟩ | ⟨_, rfl, hb, hlt, hbit⟩⟩ := hct
  · exact ⟨Logged.none rfl, by rw [haddrs, update_self], hc ▸ hne⟩
  · exact ⟨Logged.alloc hfit hb hlt hbit, by rw [haddrs, update_self], (h.placed.data_of_free hb hlt).ne_zero⟩

theorem bmap_log (h : Owned sb k s) (hfit : L.Fits sb) (hbn : bn < MAXFILE) :
    Ends (bmap L sb k bn) s (fun _ => True) fun l b t =>
      Logged sb k (· = .addr NDIRECT) l s t ∧ places k t ((s.inode k).inum, .index bn) = b ∧ b ≠ 0 ∧ Owned sb k t ∧
        Added sb k (missing k s (needed bn)) s t := by
  have hpost := bmap_spec h hbn
  rw [← erase_bmap (L := L)] at hpost
  have hlog : Ends (bmap L sb k bn) s (fun _ => True) fun l _ t =>
      Owned sb k t → (t.inode k).inum = (s.inode k).inum → Logged sb k (· = .addr NDIRECT) l s t := by
    unfold bmap
    split
    next hlt => exact (addrAlloc_log h hfit).mono (fun _ h => h) fun l c t hct _ _ => hct.1
    next hge =>
      split
      next hj =>
        refine Ends.bind (addrAlloc_log (X := fun _ => False) h hfit) fun l c t hct => ?_
        obtain ⟨hlog, hc, hpos⟩ := hct
        rw [ends_quiet_bind Prog.run_read]
        split
        next =>
          refine Ends.bind (balloc_ends.mono (fun _ _ => trivial) fun _ _ _ hq => hq) fun l' b u hbu => ?_
          obtain ⟨rfl, hb, hlt, hbit, hinode⟩ := hbu
          rw [ends_quiet_bind Prog.run_change, logWrite, ends_emit_bind, ends_ret]
          intro hown hinum
          have hinum' : (t.inode k).inum = (s.inode k).inum := by rwa [← hinode]
          have hnew : Logged sb k (fun _ => False) [BBLOCK L b, b] t u := Logged.alloc hfit hb hlt hbit
          have hind : Logged sb k (· = .addr NDIRECT) [c] u (u.setBlock c ((u.block c).setWord (bn - NDIRECT) b)) := by
            refine Logged.one rfl ?_ hpos rfl
            have hself := places_self hown.used (x := .addr NDIRECT)
            rw [Dinode.slot, if_pos (Nat.le_refl _)] at hself
            refine hself.trans ?_
            show (u.inode k).copy.addrs NDIRECT = c
            rw [hinode, hc]
          exact hlog.trans (hnew.trans hind (by rw [hinode]) fun _ hy => hy.elim) hinum' fun _ hy => hy.elim
        next =>
          rw [ends_ret]
          exact fun _ hinum => hlog.trans (Logged.none rfl) hinum fun _ hy => hy.elim
      next => trivial
  refine (hlog.and_post hpost).mono (fun _ h => h) fun l b t hbt => ?_
  obtain ⟨hlog, hb, hpos, hown, hadd⟩ := hbt
  exact ⟨hlog hown hadd.grown.inum, hb, hpos, hown, hadd⟩

theorem writeLoop_log (h : Owned sb k s) (hfit : L.Fits sb) (hmax : off + (n - tot) ≤ MAXFILE * BSIZE)
    (htot : tot ≤ reach pt src n) (hshort : reach pt src n < n) :
    Ends (writeLoop L sb k pt mem src n fuel tot off) s (fun _ => True) fun l r t =>
      off ≤ r.2 ∧ (∀ w, places k s w ≠ 0 → places k t w = places k s w) ∧ (t.inode k).inum = (s.inode k).inum ∧
        Logged sb k (fun y => y = .addr NDIRECT ∨ ∃ bn, bn < r.2 / BSIZE ∧ y = .index bn) l s t := by
  induction fuel generalizing s tot off with
  | zero => exact ⟨Nat.le_refl _, fun _ _ => rfl, rfl, Logged.none rfl⟩
  | succ fuel ih =>
    unfold writeLoop
    by_cases hlt : tot < n
    · have hmod := Nat.mod_lt off BSIZE_pos
      have hbn : off / BSIZE < MAXFILE := Nat.div_lt_of_lt_mul (by rw [Nat.mul_comm]; omega)
      rw [if_pos hlt]
      refine Ends.bind (bmap_log h hfit hbn) fun l b t hbt => ?_
      obtain ⟨hlog, hb, hpos, hown, hadd⟩ := hbt
      have hinum := hadd.grown.inum
      generalize hm : min (n - tot) (BSIZE - off % BSIZE) = m
      dsimp only
      rw [ends_quiet_bind Prog.run_change, copyin_chunk htot (by omega)]
      generalize hu : t.setBlock b ((t.block b).write (off % BSIZE)
        (((loads pt mem src (reach pt src n)).drop tot).take m)) = u
      have hstore : Wrote sb k off (((loads pt mem src (reach pt src n)).drop tot).take m) t u := by
        refine hown.store (by rwa [hinum]) hpos ?_ hu.symm
        rw [List.length_take]
        omega
      have hslots : ∀ w, places k s w ≠ 0 → places k u w = places k s w := by
        intro w hw
        have ht := hadd.grown.slots w hw
        exact (hstore.slots w (by rwa [show places k t w = places k s w from ht])).trans ht
      have hinum' : (u.inode k).inum = (s.inode k).inum := hstore.inum.trans hinum
      have hbit : u.bit = t.bit := by rw [← hu]; rfl
      split
      next =>
        refine ⟨Nat.le_refl _, hslots, hinum', hlog.trans (Logged.none hbit) hinum fun y hy => ⟨.inl hy, ?_⟩⟩
        exact fun i hne => hstore.slots _ hne
      next hok =>
        have hle : tot + m ≤ reach pt src n := by simpa using hok
        rw [logWrite, ends_emit_bind]
        refine (ih hstore.owned (by omega) hle).mono (fun _ _ => trivial) fun l' r v hv => ?_
        obtain ⟨hoff, hslots', hinum'', hlog'⟩ := hv
        have hself : places k u ((u.inode k).inum, .index (off / BSIZE)) = b := by
          rw [hinum', hstore.slots _ (by rwa [hb]), hb]
        have hdone : off / BSIZE < r.2 / BSIZE := by
          have hB : BSIZE = 1024 := rfl
          rw [hB] at hm ⊢
          omega
        have hdata : Logged sb k (fun y => y = .addr NDIRECT ∨ ∃ bn, bn < r.2 / BSIZE ∧ y = .index bn) [b] u u :=
          Logged.one (.inr ⟨_, hdone, rfl⟩) hself hpos rfl
        refine ⟨by omega, fun w hw => ?_, hinum''.trans hinum', ?_⟩
        · rw [hslots' w (by rwa [hslots w hw]), hslots w hw]
        · have hrest := hdata.trans hlog' rfl fun y hy => ⟨hy, fun i hne => hslots' _ hne⟩
          have htail := (Logged.none (X := fun _ => False) hbit).trans hrest hstore.inum fun _ hy => hy.elim
          refine hlog.trans htail hinum fun y hy => ⟨.inl hy, fun i hne => ?_⟩
          rw [hslots' _ (by rwa [hstore.slots _ hne]), hstore.slots _ hne]
    · rw [if_neg hlt]
      exact ⟨Nat.le_refl _, fun _ _ => rfl, rfl, Logged.none rfl⟩

theorem Logged.outside (hb : ¬ sb.Data b) (hbit : t.bit = s.bit) : Logged sb k X [b] s t := by
  refine ⟨fun x hx => ?_, fun x hx hx' => ?_, fun x hx => by rwa [hbit]⟩
  · rw [List.mem_singleton.mp hx]
    exact .inl hb
  · rw [hbit, hx] at hx'
    cases hx'

theorem writei_log (h : Owned sb k s) (hfit : L.Fits sb) (hinum : (s.inode k).inum < sb.ninodes)
    (hgo : ¬ refused s k off n) (hshort : reach pt src n < n) :
    Ends (writei L sb k pt mem src off n) s (fun _ => True) fun l _ t =>
      Logged sb k (fun y => y = .addr NDIRECT ∨ ∃ bn, bn < (off + cut off (reach pt src n)) / BSIZE ∧ y = .index bn)
        l s t := by
  unfold refused at hgo
  have hspec := writeLoop_spec h (show off + (n - 0) ≤ MAXFILE * BSIZE by omega) (Nat.le_refl _)
    (Nat.zero_le (loads pt mem src (reach pt src n)).length) (Nat.zero_le _)
  rw [Nat.sub_zero, loads_length, Nat.sub_zero, ← erase_writeLoop (L := L) (by omega) (Nat.zero_le _) (Nat.zero_le _)] at hspec
  have hcut : written off (reach pt src n) n = cut off (reach pt src n) := if_neg (by omega)
  rw [hcut] at hspec
  unfold writei
  rw [ends_quiet_bind Prog.run_read, if_neg (by omega), if_neg (by omega)]
  refine Ends.bind ((writeLoop_log h hfit (by omega) (Nat.zero_le _) hshort).and_post hspec) fun l r t hrt => ?_
  obtain ⟨⟨_, _, hinum', hlog⟩, _, _, _, hr, _⟩ := hrt
  rw [hr] at hlog
  rw [edit, ends_quiet_bind Prog.run_change, size_max, ends_bind, iupdate, ends_quiet_bind Prog.run_read, Fs.iupdate,
    ends_quiet_bind Prog.run_change, logWrite, ends_emit, ends_ret, List.append_nil]
  dsimp only [Volume.setInode]
  rw [update_self]
  dsimp only
  generalize max (t.inode k).copy.size r.2 = z
  generalize hu : (Volume.mk _ _ _ _) = u
  have hinode : u.inode = update t.inode k { t.inode k with copy := { (t.inode k).copy with size := z } } := by
    rw [← hu]
  have hdinode : u.dinode = update t.dinode (t.inode k).inum (u.inode k).copy := by
    rw [hinode, update_self, ← hu]
  have hplaces : places k u = places k t := places_resize hinode hdinode (by rw [← hu])
  have hout : Logged sb k (fun y => y = .addr NDIRECT ∨
      ∃ bn, bn < (off + cut off (reach pt src n)) / BSIZE ∧ y = .index bn) [IBLOCK L (t.inode k).inum] t u :=
    Logged.outside (hfit.inodes _ (by rwa [hinum'])) (by rw [← hu])
  exact hlog.trans hout hinum' fun y hy => ⟨hy, fun i _ => congrFun hplaces (i, y)⟩

theorem cut_le : cut off m ≤ m := by
  unfold cut
  have := Nat.div_mul_le_self (off + m) BSIZE
  omega

theorem cut_le_iff : cut off m ≤ i ∧ i < m → (off + i) / BSIZE = (off + m) / BSIZE := by
  unfold cut
  have hB : BSIZE = 1024 := rfl
  rw [hB]
  omega

theorem cut_div : (off + cut off m) / BSIZE = (off + m) / BSIZE := by
  unfold cut
  have hB : BSIZE = 1024 := rfl
  rw [hB]
  omega

theorem cut_le_of_div (h : o / BSIZE = (off + m) / BSIZE) : cut off m ≤ o - off := by
  unfold cut
  rw [← h]
  have := Nat.div_mul_le_self o BSIZE
  omega

theorem bytes_loads (hself : bytes k t (s.inode k).inum = (bytes k s (s.inode k).inum).write off (loads pt mem src m))
    (hi : i < m) : bytes k t (s.inode k).inum (off + i) = mem (translate pt (src + i)) := by
  rw [hself, Bytes.write_at (by rwa [loads_length])]
  simp [loads]

section Slot

variable (h : Logged sb k X l s t) (hown : Owned sb k s) (hown' : Owned sb k t)
  (hslots : ∀ w, places k s w ≠ 0 → places k t w = places k s w)

include h hown hown' hslots

theorem Logged.new_slot {w : Nat × Slot} (hs : places k s w = 0) (ht : places k t w ≠ 0) : places k t w ∈ l := by
  obtain ⟨hdata, hbit⟩ := hown'.placed.marked ht
  refine h.new _ ?_ hbit
  by_contra hno
  obtain ⟨v, hv, hvw⟩ := hown.placed.part.total (places k t w) ⟨hdata, by simpa using hno⟩
  have hne : v ≠ w := by
    rintro rfl
    exact hv (by rw [← hvw, hs])
  exact hown'.placed.ne ht hne (by rw [hslots v (by rwa [hvw]), hvw])

theorem Logged.not_mem (hX : ¬ X y)
    (hs : places k s ((s.inode k).inum, y) ≠ 0) : places k s ((s.inode k).inum, y) ∉ l := by
  intro hmem
  obtain ⟨hdata, hbit⟩ := hown.placed.marked hs
  rcases h.where_ _ hmem with hno | hno | ⟨z, hz, hp, _⟩
  · exact hno hdata
  · rw [hbit] at hno
    cases hno
  · have ht := hslots _ hs
    have hne : ((s.inode k).inum, z) ≠ ((s.inode k).inum, y) := by
      intro he
      rw [(Prod.mk.inj he).2] at hz
      exact hX hz
    exact hown'.placed.ne (by rwa [ht]) hne (by rw [hp, ht])

end Slot

theorem bytes_at (hb : places k s (i, .index (o / BSIZE)) = b) (hpos : b ≠ 0) :
    bytes k s i o = s.block b (o % BSIZE) := by
  unfold bytes
  rw [hb, if_neg hpos]

/-- When `copyin` fails, the write is contained exactly if the bytes copied to the last block do no harm.
-/
theorem failed_iff (hown : Owned sb k s) (hwrote : Wrote sb k off (loads pt mem src m) s t)
    (hsize : (t.inode k).copy.size = max (s.inode k).copy.size (off + cut off m)) (hoff : off ≤ (s.inode k).copy.size)
    (hfill : places k t ((s.inode k).inum, .index ((off + m) / BSIZE)) ≠ 0)
    (hlog : Logged sb k (fun y => y = .addr NDIRECT ∨ ∃ bn, bn < (off + m) / BSIZE ∧ y = .index bn) l s t)
    (hhome : ∀ b, b ∈ log ∨ Same home s b) : Contained home (log ++ l) k off s (some (cut off m)) t ↔
      ∀ i, cut off m ≤ i → i < m →
        mem (translate pt (src + i)) = bytes k s (s.inode k).inum (off + i) ∨
        (s.inode k).copy.size ≤ off + i ∧ (places k s ((s.inode k).inum, .index ((off + m) / BSIZE)) = 0 ∨
          places k s ((s.inode k).inum, .index ((off + m) / BSIZE)) ∈ log) := by
  have hX : ¬ (Slot.index ((off + m) / BSIZE) = .addr NDIRECT ∨
      ∃ bn, bn < (off + m) / BSIZE ∧ Slot.index ((off + m) / BSIZE) = .index bn) := by
    rintro (he | ⟨bn, hbn, he⟩)
    · exact Slot.index_ne _ he
    · have := Slot.index_inj he
      omega
  constructor
  · intro hcon i hlo hhi
    by_contra hno
    obtain ⟨hne, hex⟩ := not_or.mp hno
    rcases Nat.lt_or_ge (off + i) (s.inode k).copy.size with hlt | hge
    · have hseen := hcon.file (off + i) (by simp; omega)
      unfold seen at hseen
      rw [if_pos (by omega), if_pos hlt, hwrote.inum, bytes_loads hwrote.self hhi] at hseen
      exact hne (Option.some.inj hseen)
    · obtain ⟨hs, hnlog⟩ := not_or.mp fun h => hex ⟨hge, h⟩
      have ht := hwrote.slots _ hs
      have hdiv := cut_le_iff ⟨hlo, hhi⟩
      have hcache := hcon.cache
      rw [Option.getD_some, cut_div, ht] at hcache
      have hnew : Same home t (places k s ((s.inode k).inum, .index ((off + m) / BSIZE))) := by
        refine hcache.resolve_left fun hmem => ?_
        rcases List.mem_append.mp hmem with hmem | hmem
        · exact hnlog hmem
        · exact hlog.not_mem hown hwrote.owned hwrote.slots hX hs hmem
      have hold := (hhome _).resolve_left hnlog
      have hmod := Nat.mod_lt (off + i) BSIZE_pos
      refine hne ?_
      rw [← bytes_loads hwrote.self hhi, bytes_at (by rw [hdiv, ht]) hs, bytes_at (by rw [hdiv]) hs, hnew _ hmod,
        hold _ hmod]
  · intro hall
    have hsame : ∀ o, (off ≤ o → cut off m ≤ o - off) → (o < (s.inode k).copy.size ∨ o / BSIZE = (off + m) / BSIZE ∧
        places k s ((s.inode k).inum, .index ((off + m) / BSIZE)) ≠ 0 ∧
        places k s ((s.inode k).inum, .index ((off + m) / BSIZE)) ∉ log) →
        bytes k t (s.inode k).inum o = bytes k s (s.inode k).inum o := by
      intro o hlo hin
      rcases Nat.lt_or_ge o off with hlt | hge
      · rw [hwrote.self, Bytes.write_other (.inl hlt)]
      · obtain ⟨i, rfl⟩ := Nat.exists_eq_add_of_le hge
        rw [Nat.add_sub_cancel_left] at hlo
        rcases Nat.lt_or_ge i m with hi | hi
        · rw [bytes_loads hwrote.self hi]
          refine (hall i (hlo hge) hi).resolve_right fun hexc => ?_
          rcases hin with hin | ⟨_, hs, hmem⟩
          · omega
          · exact hexc.2.elim hs hmem
        · rw [hwrote.self, Bytes.write_other (.inr (by rw [loads_length]; omega))]
    constructor
    case file =>
      intro o ho
      rw [Option.getD_some] at ho
      unfold seen
      rw [hwrote.inum]
      by_cases hlt : o < (s.inode k).copy.size
      · rw [if_pos hlt, if_pos (by omega), hsame o (by omega) (.inl hlt)]
      · rw [if_neg hlt, if_neg (by omega)]
    case cache =>
      rw [Option.getD_some, cut_div]
      by_cases hs : places k s ((s.inode k).inum, .index ((off + m) / BSIZE)) = 0
      · exact .inl (List.mem_append_right _ (hlog.new_slot hown hwrote.owned hwrote.slots hs hfill))
      · rw [hwrote.slots _ hs]
        by_cases hmem : places k s ((s.inode k).inum, .index ((off + m) / BSIZE)) ∈ log
        · exact .inl (List.mem_append_left _ hmem)
        · refine .inr fun j hj => ?_
          have hdiv : ((off + m) / BSIZE * BSIZE + j) / BSIZE = (off + m) / BSIZE := by
            rw [Nat.mul_comm, Nat.mul_add_div BSIZE_pos, Nat.div_eq_of_lt hj, Nat.add_zero]
          have hmod : ((off + m) / BSIZE * BSIZE + j) % BSIZE = j := by
            rw [Nat.mul_comm, Nat.mul_add_mod, Nat.mod_eq_of_lt hj]
          have heq := hsame ((off + m) / BSIZE * BSIZE + j) (fun _ => cut_le_of_div hdiv) (.inr ⟨hdiv, hs, hmem⟩)
          rw [bytes_at (by rw [hdiv, hwrote.slots _ hs]) hs, bytes_at (by rw [hdiv]) hs, hmod] at heq
          rw [heq]
          exact (hhome _).resolve_left hmem j hj

/-- A `writei` that writes less than it was asked to is contained exactly if what it copied to the last
block does no harm. -/
theorem writei_contained_iff (L : Layout) (sb : Superblock) (k : Fin NINODE) (pt : Pages) (mem : Nat → UInt8)
    (home : Nat → Bytes) (log l : List Nat) (s t : Volume) (src off n : Nat) (r : Option Nat) (hown : Owned sb k s)
    (hfit : L.Fits sb) (hinum : (s.inode k).inum < sb.ninodes) (hhome : ∀ b, b ∈ log ∨ Same home s b)
    (hrun : writei L sb k pt mem src off n s = (l, .ok (r, t))) :
    (r ≠ some n → Contained home (log ++ l) k off s r t) ↔ Harmless log k pt mem src off n s := by
  unfold Harmless
  by_cases hgo : refused s k off n
  · have hnone : writei L sb k pt mem src off n s = ([], .ok (none, s)) := by
      unfold writei
      unfold refused at hgo
      rw [run_quiet_bind Prog.run_read]
      by_cases hfirst : (s.inode k).copy.size < off ∨ (off + n) % 4294967296 < off
      · rw [if_pos hfirst]
        rfl
      · rw [if_neg hfirst, if_pos (by omega)]
        rfl
    rw [hnone] at hrun
    cases hrun
    refine iff_of_true (fun _ => ⟨fun _ _ => rfl, ?_⟩) (.inl hgo)
    rw [List.append_nil]
    exact hhome _
  · have herase : Fs.writei sb k (loads pt mem src (reach pt src n)) off n s = .ok (r, t) := by
      rw [← erase_writei (L := L), erase, hrun]
    have hrefused := hgo
    unfold refused at hrefused
    obtain ⟨hr, hwrote, hsize, _, hfill, _⟩ := (writei_spec hown (by omega) (by omega)).of_eq herase
    rw [loads_length] at hr hsize hfill
    rcases Nat.lt_or_ge (reach pt src n) n with hshort | hall
    · have hcut : written off (reach pt src n) n = cut off (reach pt src n) := if_neg (by omega)
      have hne : some (cut off (reach pt src n)) ≠ some n := by
        have hle : cut off (reach pt src n) ≤ reach pt src n := cut_le
        intro he
        have := Option.some.inj he
        omega
      have hlog := (writei_log hown hfit hinum hgo hshort).of_eq hrun
      rw [hcut] at hr hsize hfill
      rw [cut_div] at hlog hfill
      rw [List.take_of_length_le (by rw [loads_length]; omega)] at hwrote
      rw [hr, forall_prop_of_true hne, failed_iff hown hwrote hsize (by omega) (hfill hshort) hlog hhome]
      exact ⟨fun h => .inr (.inr h), fun h => (h.resolve_left hgo).resolve_left (by omega)⟩
    · rw [hr, written, if_pos hall]
      exact iff_of_true (fun hne => absurd rfl hne) (.inr (.inl hall))

def oneDisk : Superblock := ⟨5, 2, 2, by decide, by decide, smallDisk.ninodes_le⟩

def oneDinode : Dinode := { type := .file, nlink := 1, size := 2, addrs := fun i => if i = 0 then 3 else 0 }

def oneBlock : Volume where
  bit := fun b => b ≤ 3
  dinode := fun i => if i = 1 then oneDinode else {}
  block := fun _ _ => 0
  inode := fun _ => { dev := 1, inum := 1, ref := 1, valid := true, copy := oneDinode }

theorem oneBlock_places (w : Nat × Slot) : places k oneBlock w = if w = (1, .addr 0) then 3 else 0 := by
  obtain ⟨i, y⟩ := w
  by_cases hi : i = 1
  · subst hi
    have hcur : cur k oneBlock 1 = oneDinode := by simp [cur, oneBlock]
    rw [places, slot_used (by rw [hcur]; decide), hcur]
    cases y with
    | addr j => by_cases hj : j = 0 <;> simp [Dinode.slot, oneDinode, hj]
    | entry j => simp [Dinode.slot, oneDinode, NDIRECT]
  · have hcur : cur k oneBlock i = {} := by simp [cur, oneBlock, hi]
    simp [places, slot, hcur, hi]

theorem oneBlock_owned : Owned oneDisk k oneBlock := by
  have hdata : ∀ b, oneDisk.Data b ↔ 3 ≤ b ∧ b < 5 := fun _ => Iff.rfl
  have hbit : ∀ b, oneBlock.bit b = decide (b ≤ 3) := fun _ => rfl
  have hat : ∀ w b, b ≠ 0 ∧ places k oneBlock w = b ↔ w = (1, .addr 0) ∧ b = 3 := by
    intro w b
    rw [oneBlock_places]
    split <;> simp_all <;> omega
  refine ⟨by simp [oneBlock, oneDinode], ⟨⟨?_, ?_, ?_⟩, ?_⟩⟩
  · intro w b hw
    obtain ⟨_, rfl⟩ := (hat w b).mp hw
    exact ⟨(hdata 3).mpr (by omega), rfl⟩
  · intro v w b hv hw
    rw [((hat v b).mp hv).1, ((hat w b).mp hw).1]
  · intro b hb
    rw [hdata, hbit, decide_eq_true_eq] at hb
    exact ⟨(1, .addr 0), (hat _ b).mpr ⟨rfl, by omega⟩⟩
  · intro b hlt hno
    have hlt : b < 5 := hlt
    rw [hdata] at hno
    rw [hbit, decide_eq_true_eq]
    omega

theorem oneDisk_fits : (Layout.mk 1 2).Fits oneDisk := by
  have hdata : ∀ b, oneDisk.Data b ↔ 3 ≤ b ∧ b < 5 := fun _ => Iff.rfl
  constructor
  · intro b hb
    have hb : b < 5 := hb
    rw [hdata, BBLOCK, show BPB = 8192 from rfl]
    dsimp only
    omega
  · intro i hi
    have hi : i < 2 := hi
    rw [hdata, IBLOCK, show IPB = 16 from rfl]
    dsimp only
    omega

def onePage : Pages := fun va => if va = 0 then some 65536 else none

theorem writei_contained_iff_one :
    ∃ l t, writei ⟨1, 2⟩ oneDisk ⟨0, zero_lt_NINODE⟩ onePage (fun _ => 7) 4095 2 2 oneBlock = (l, .ok (some 0, t)) ∧
      (some 0 ≠ some 2 → Contained (fun _ _ => 0) ([3] ++ l) ⟨0, zero_lt_NINODE⟩ 2 oneBlock (some 0) t) := by
  refine ⟨_, _, rfl, ?_⟩
  refine (writei_contained_iff ⟨1, 2⟩ oneDisk ⟨0, zero_lt_NINODE⟩ onePage (fun _ => 7) (fun _ _ => 0) [3] _ oneBlock _
    4095 2 2 (some 0) oneBlock_owned oneDisk_fits (by decide) (fun b => .inr fun _ _ => rfl) rfl).mpr ?_
  refine .inr (.inr fun i _ hi => .inr ⟨Nat.le_add_right 2 i, .inr ?_⟩)
  rw [oneBlock_places]
  decide

/-- One byte is copied before `copyin` fails: the file has changed, and the block is not in the log. -/
theorem writei_not_contained : ∃ l t,
    writei ⟨1, 2⟩ oneDisk ⟨0, zero_lt_NINODE⟩ onePage (fun _ => 7) 4095 0 2 oneBlock = (l, .ok (some 0, t)) ∧
      seen ⟨0, zero_lt_NINODE⟩ oneBlock 0 = some 0 ∧ seen ⟨0, zero_lt_NINODE⟩ t 0 = some 7 ∧
      l = [1] ∧ t.block 3 0 = 7 := by
  refine ⟨_, _, rfl, ?_, ?_, ?_, ?_⟩
  · decide
  · decide
  · decide
  · decide

end TweakedXv6.Fs.Trans
