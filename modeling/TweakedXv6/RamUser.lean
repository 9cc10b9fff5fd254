import TweakedXv6.RamMap

namespace TweakedXv6.Phys

open Prog
open Vm (PGSIZE Layout Pte Ghost Good Table UserMap Space pages trampVpn tfVpn)

variable {lay : Layout} {G : Ghost} {r : Ram} {T S : Table} {d d' q i j k n oldsz newsz : Nat} {e : Pte}
  {guard : Nat → Prop}

def ZeroPage (r : Ram) (q : Nat) : Prop := ∀ o < 4096, r.byte (q * 4096 + o) = 0

structure Grown (r : Ram) (T S : Table) (k n : Nat) : Prop where
  old : ∀ i, i < k ∨ k + n ≤ i → S.leaf i = T.leaf i
  fresh : ∀ i, k ≤ i → i < k + n → ∃ q, S.leaf i = some (Pte.user.mapped q) ∧ ZeroPage r q

theorem Sound.pages_le (h : Sound lay G r) (hT : G.table d = some T) (hU : UserMap T k guard) : k ≤ 32768 :=
  Good.pages_le h hT hU

theorem freewalkEntry_none {f : Nat → Kmem Unit} (hi : i < 512) (hv : ((view r).pte q i).v = false) :
    freewalkEntry f q i r = .ok ((), r) := by
  rw [view_pte hi] at hv
  rw [freewalkEntry, readPte, run_bind run_read, if_neg (by simp [show has _ PTE_V = false from hv]),
    if_neg (by simp [show has _ PTE_V = false from hv]), run_ret]

theorem Sound.unlink {l b p : Nat} (h : Sound lay (G.setTable d (some T)) r) (hl : l < 2)
    (hq : T.node (l + 1) (b / 512) = some q) (hp : T.node l b = some p) (hchild : T.Childless l b) :
    Returns (kfree lay p >>= fun _ => writePte q (b % 512) 0) r fun _ r' =>
      Sound lay (G.setTable d (some (T.setNode l b none))) r' ∧ Kept (Other lay G d) r r' := by
  have hmod : b % 512 < 512 := Nat.mod_lt _ (by decide)
  have hkept : Post (fun _ => True) (kfree lay p >>= fun _ => writePte q (b % 512) 0) r fun _ r' =>
      Kept (Other lay G d) r r' := by
    refine Post.bind kfree_kept fun _ t ht => ?_
    refine (ht.mono fun x hx hxp => ?_).trans ((setPte_kept hmod).mono fun x hx hxq => ?_)
    · exact (hx.setTable.apart h).2 T (.node l b) Vm.setTable_self (hxp ▸ hp)
    · exact (hx.setTable.apart h).2 T (.node (l + 1) (b / 512)) Vm.setTable_self (hxq ▸ hq)
  have hspec := Good.unlink h Vm.setTable_self hl hq hp hchild
  rw [Vm.setTable_setTable] at hspec
  exact h.run_kept (kfree_refines.bind fun _ => writePte_refines hmod (by decide)) hspec hkept

theorem Sound.destroy (h : Sound lay (G.setTable d (some T)) r) (hleaf : ∀ n, T.leaf n = none)
    (hchild : T.Childless 2 0) :
    Returns (kfree lay d) r fun _ r' => Sound lay (G.setTable d none) r' ∧ Kept (Other lay G d) r r' := by
  have hspec := Good.destroy h Vm.setTable_self hleaf hchild
  rw [Vm.setTable_setTable] at hspec
  refine h.run_kept kfree_refines hspec (kfree_kept.mono fun _ r' hk => hk.mono fun x hx hxd => ?_)
  obtain ⟨l, a, ha⟩ := h.root_page Vm.setTable_self
  exact (hx.setTable.apart h).2 T (.node l a) Vm.setTable_self (hxd ▸ ha)

def space (lay : Layout) (G : Ghost) (d : Nat) : Space lay d Ram where
  Ok o r := Sound lay (G.setTable d o) r
  Kept := Kept (Other lay G d)
  kfree := kfree lay
  entry := freewalkEntry
  clear q i := writePte q i 0
  unmapPage := unmapPage lay d
  refl _ := Kept.refl
  trans := Kept.trans
  top h := h.root d _ Vm.setTable_self ▸ (h.rep d _ Vm.setTable_self).top
  pages_le h hU := Good.pages_le h Vm.setTable_self hU
  entry_leaf h hq hi hleaf := by
    have hent := (h.rep d _ Vm.setTable_self).bottom _ _ hq _ hi
    rw [hleaf] at hent
    exact freewalkEntry_none hi hent
  entry_none h hq hi hp := by
    have hent := (h.rep d _ Vm.setTable_self).inner _ _ _ hq _ hi
    rw [hp] at hent
    exact freewalkEntry_none hi hent
  entry_some h hq hi hp := by
    have hent := (h.rep d _ Vm.setTable_self).inner _ _ _ hq _ hi
    rw [hp, view_pte hi] at hent
    obtain ⟨hv, hr, hw, hx, _, _, hppn⟩ := Pte.mk.inj hent
    rw [freewalkEntry, readPte, run_bind run_read, if_pos ⟨hv, by rw [hr, hw, hx]; rfl⟩, hppn]
  unlink h hl hq hp hchild := h.unlink hl hq hp hchild
  destroy h hleaf hchild := h.destroy hleaf hchild
  unmap doFree h hlt hn hown := by
    refine (unmapPage_spec doFree h Vm.setTable_self hlt hn hown).mono ?_
    rintro _ r' ⟨hr', hk⟩
    rw [Vm.setTable_setTable] at hr'
    exact ⟨hr', hk.mono fun x hx => hx.setTable⟩

theorem Sound.space (h : Sound lay G r) (hT : G.table d = some T) : (space lay G d).Ok (some T) r := by
  change Sound lay (G.setTable d (some T)) r
  rwa [Vm.setTable_eq hT]

theorem uvmdealloc_spec (h : Sound lay G r) (hT : G.table d = some T) (hU : UserMap T (pages oldsz) guard) :
    Returns (uvmdealloc lay d oldsz newsz) r fun v r' => v = min oldsz newsz ∧
      Sound lay (G.setTable d (some (T.clear (pages v) (pages oldsz - pages v)))) r' ∧ Kept (Other lay G d) r r' :=
  Space.uvmdealloc_spec (h.space hT) hU

theorem uvmdealloc_undo (h : Sound lay (G.setTable d (some S)) r) (hU : UserMap S (k + j) guard) :
    Returns (uvmdealloc lay d ((k + j) * 4096) (k * 4096)) r fun _ r' =>
      Sound lay (G.setTable d (some (S.clear k j))) r' ∧ Kept (Other lay G d) r r' :=
  Space.uvmdealloc_undo (L := space lay G d) h hU

theorem decode_userPerm : decode userPerm = .user := by decide

theorem clear_congr (h : S.leaf = T.leaf) : (S.clear k j).leaf = (T.clear k j).leaf := by
  simp only [Table.clear, h]

theorem clear_push {o : Option Pte} (hnone : T.leaf (k + j) = none) (hleaf : S.leaf = T.leaf) :
    ((S.setLeaf (k + j) o).clear k (j + 1)).leaf = (T.clear k j).leaf := by
  funext i
  simp only [Table.clear]
  by_cases hi : i = k + j
  · rw [if_pos (by omega), if_neg (by omega), hi, hnone]
  · rw [Vm.setLeaf_other hi, hleaf]
    by_cases hin : k ≤ i ∧ i < k + j
    · rw [if_pos (by omega), if_pos hin]
    · rw [if_neg (by omega), if_neg hin]

theorem held_leaf (hn : n < tfVpn) (hT : G.table d = some T) (he : T.leaf n = some e) : Held lay G d e.ppn := by
  exact .inr ⟨T, n, hT, Vm.Table.at_user hn he⟩

theorem Held.push {x : Nat} (hx : Held lay G d x) (hT : G.table d = some T) (hnone : T.leaf n = none)
    (hleaf : S.leaf = T.leaf) : Held lay (G.setTable d (some (S.setLeaf n (some e)))) d x := by
  refine hx.setTable hT fun i f hf => ?_
  have hne : i ≠ n := by
    rintro rfl
    rw [hnone] at hf
    cases hf
  rw [Vm.setLeaf_other hne, hleaf]
  exact hf

/-- A new page, filled with `c`, is mapped or given back. -/
theorem mapFresh {t : Ram} {c : Nat → UInt8} (perm : Nat) (h : Sound lay G r) (ht : Sound lay (G.use q) t) (hq : ¬ G.used q)
    (hfree : q ∈ r.free) (hkept : Kept (· ≠ q) r t) (hc : ∀ o < 4096, t.byte (q * 4096 + o) = c o)
    (hT : G.table d = some T) (hn : n < tfVpn) (hnone : T.leaf n = none) (hperm : perm < 1024) (hleafy : (decode perm).Leafy) :
    Returns (mappages d (n * 4096) PGSIZE q perm) t fun ok u =>
      ok = false ∧ Returns (kfree lay q) u (fun _ v => ∃ S, Sound lay (G.setTable d (some S)) v ∧ S.leaf = T.leaf ∧
        Kept (Other lay G d) r v) ∨
      ok = true ∧ ∃ S : Table, Sound lay (G.setTable d (some (S.setLeaf n (some ((decode perm).mapped q))))) u ∧
        S.leaf = T.leaf ∧ Kept (Held lay G d) r u ∧ ∀ o < 4096, u.byte (q * 4096 + o) = c o := by
  -- the new page was free, so nobody else sees it change
  have hfresh : ∀ x, Held lay G d x → x ≠ q := by
    rintro x hx rfl
    exact (hx.apart h).1 hfree
  refine (mappages_user perm ht hq hT hn hnone hperm hleafy).mono ?_
  rintro ok u ⟨hku, hmap⟩
  have hku' : Kept (Held lay G d) r u := (hkept.mono hfresh).trans (hku.mono fun x hx => hx.use)
  rcases hmap with ⟨rfl, S, hS, hleaf⟩ | ⟨rfl, S, hS, hleaf⟩
  · refine .inl ⟨rfl, (kfree_spec hS (.inl rfl)).mono ?_⟩
    rintro _ v ⟨hv, hkv⟩
    rw [Vm.unuse_use (show ¬ (G.setTable d (some S)).used q from hq)] at hv
    exact ⟨S, hv, hleaf, (hku'.trans (hkv.mono hfresh)).mono fun x hx => .inl hx⟩
  · refine .inr ⟨rfl, S, hS, hleaf, hku', fun o ho => ?_⟩
    rw [hku.page (.inl (.inr (.inl (.inl rfl)))) ho, hc o ho]

theorem uvmallocLoop_spec (h : Sound lay G r) (hT : G.table d = some T) (hU : UserMap T (k + j) guard) :
    Returns (uvmallocLoop lay d (k * 4096) newsz n ((k + j) * 4096)) r fun v r' =>
      v = 0 ∧ (∃ S, Sound lay (G.setTable d (some S)) r' ∧ S.leaf = (T.clear k j).leaf ∧ Kept (Other lay G d) r r') ∨
      v = newsz ∧ ∃ S, Sound lay (G.setTable d (some S)) r' ∧ Grown r' T S (k + j) n ∧ Kept (Held lay G d) r r' := by
  induction n generalizing G r T j with
  | zero =>
    refine .inr ⟨rfl, T, ?_, ⟨fun i _ => rfl, fun i hi hlt => absurd hlt (by omega)⟩, Kept.refl⟩
    rw [Vm.setTable_eq hT]
    exact h
  | succ n ih =>
    rw [uvmallocLoop]
    refine (kalloc_spec h).bind ?_
    rintro o t (⟨rfl, ht, hbyte⟩ | ⟨q, rfl, ht, hq, _, hfree, hkept⟩)
    · rw [← Vm.setTable_eq hT] at ht
      refine Post.bind (uvmdealloc_undo ht hU) fun _ u hu => ?_
      exact .inl ⟨rfl, _, hu.1, rfl, fun a ha => by rw [hu.2 a ha, hbyte]⟩
    have hle := h.pages_le hT hU
    have hlt : k + j < tfVpn := by
      unfold tfVpn
      omega
    have hnone : T.leaf (k + j) = none := hU.rest _ (Nat.le_refl _) hlt
    have hfill : Sound lay (G.use q) (t.fillPage q 0) :=
      ht.write (fun _ _ hS => ht.used_not_page (.inl rfl) hS) fillPage_kept rfl
    have hzero : ZeroPage (t.fillPage q 0) q := fun o ho => Bytes.fill_in (by unfold PGSIZE; omega)
    dsimp only
    rw [fillPage, post_change_bind]
    refine (mapFresh userPerm h hfill hq hfree (hkept.trans fillPage_kept) hzero hT hlt hnone (by decide) rfl).bind ?_
    rintro ok u (⟨rfl, hback⟩ | ⟨rfl, S, hS, hleaf, hku, hzero⟩)
    · rw [if_neg Bool.false_ne_true]
      refine hback.bind ?_
      rintro _ v ⟨S, hv, hleaf, hkv⟩
      refine (uvmdealloc_undo hv (hU.congr hleaf)).bind ?_
      rintro _ w ⟨hw, hkw⟩
      exact .inl ⟨rfl, _, hw, clear_congr hleaf, hkv.trans hkw⟩
    · rw [if_pos rfl, show (k + j) * 4096 + PGSIZE = (k + (j + 1)) * 4096 by unfold PGSIZE; omega]
      rw [decode_userPerm] at hS
      have hU' : UserMap (S.setLeaf (k + j) (some (Pte.user.mapped q))) (k + (j + 1)) guard :=
        (hU.congr hleaf).push (.inl rfl)
      have hpage : Held lay (G.setTable d (some (S.setLeaf (k + j) (some (Pte.user.mapped q))))) d q :=
        held_leaf hlt Vm.setTable_self Vm.setLeaf_self
      refine (ih hS Vm.setTable_self hU').mono ?_
      rintro v w (⟨rfl, R, hR, hRleaf, hkw⟩ | ⟨rfl, R, hR, hgrown, hkw⟩)
      · rw [Vm.setTable_setTable] at hR
        refine .inl ⟨rfl, R, hR, ?_, (hku.mono fun x hx => .inl hx).trans (hkw.mono fun x hx => hx.setTable)⟩
        rw [hRleaf, clear_push hnone hleaf]
      · rw [Vm.setTable_setTable] at hR
        refine .inr ⟨rfl, R, hR, ⟨fun i hi => ?_, fun i hi hlt => ?_⟩,
          hku.trans (hkw.mono fun x hx => hx.push hT hnone hleaf)⟩
        · rw [hgrown.old i (by omega), Vm.setLeaf_other (by omega), hleaf]
        · rcases Nat.lt_or_eq_of_le hi with hi | rfl
          · exact hgrown.fresh i (by omega) (by omega)
          · refine ⟨q, ?_, fun o ho => ?_⟩
            · rw [hgrown.old _ (by omega), Vm.setLeaf_self]
            · rw [hkw.page hpage ho, hzero o ho]

theorem uvmalloc_spec (h : Sound lay G r) (hT : G.table d = some T) (hU : UserMap T (pages oldsz) guard) :
    Returns (uvmalloc lay d oldsz newsz) r fun v r' =>
      v = 0 ∧ (∃ S, Sound lay (G.setTable d (some S)) r' ∧ S.leaf = T.leaf ∧ Kept (Other lay G d) r r') ∨
      v = max oldsz newsz ∧ ∃ S, Sound lay (G.setTable d (some S)) r' ∧
        Grown r' T S (pages oldsz) (pages v - pages oldsz) ∧ Kept (Held lay G d) r r' := by
  have hle := h.pages_le hT hU
  have hold : oldsz ≤ 134217728 := by
    unfold pages at hle
    omega
  unfold uvmalloc
  split
  next hlt =>
    rw [Returns, post_ret, Nat.max_eq_left (by omega), Nat.sub_self]
    refine .inr ⟨rfl, T, ?_, ⟨fun i _ => rfl, fun i hi hlt => absurd hlt (by omega)⟩, Kept.refl⟩
    rw [Vm.setTable_eq hT]
    exact h
  next hlt =>
    rw [Vm.pgroundup_eq hold, Nat.max_eq_right (by omega)]
    refine (uvmallocLoop_spec (j := 0) h hT hU).mono ?_
    rintro v t (⟨rfl, S, hS, hleaf, hkept⟩ | ⟨rfl, S, hS, hgrown, hkept⟩)
    · rw [Vm.clear_zero] at hleaf
      exact .inl ⟨rfl, S, hS, hleaf, hkept⟩
    · have hn : (v - pages oldsz * 4096 + 4095) / PGSIZE = pages v - pages oldsz := by
        unfold pages PGSIZE
        omega
      rw [hn] at hgrown
      exact .inr ⟨rfl, S, hS, hgrown, hkept⟩

theorem decode_flags {pte : Nat} : (decode (pteFlags pte)).mapped q = (decode pte).mapped q := by
  have hflag : ∀ flag, pte % 1024 / flag % 2 = pte / flag % 2 → has (pteFlags pte) flag = has pte flag := by
    intro flag hflag
    unfold has pteFlags
    rw [hflag]
  unfold decode Pte.mapped
  dsimp only
  rw [hflag PTE_R (by unfold PTE_R; omega), hflag PTE_W (by unfold PTE_W; omega), hflag PTE_X (by unfold PTE_X; omega),
    hflag PTE_U (by unfold PTE_U; omega),
    upperFlags_congr (show pteFlags pte / 32 % 32 = pte / 32 % 32 by unfold pteFlags; omega)]

theorem pteFlags_sum {pte : Nat} : pteFlags pte = pte / PTE_V % 2 + 2 * (pte / PTE_R % 2) + 4 * (pte / PTE_W % 2) +
    8 * (pte / PTE_X % 2) + 16 * (pte / PTE_U % 2) + 32 * (pte / 32 % 32) := by
  unfold pteFlags PTE_V PTE_R PTE_W PTE_X PTE_U
  omega

theorem pteFlags_mapped {a b : Nat} (hb : decode b = (decode a).mapped q) (hv : (decode a).v = true) :
    pteFlags b = pteFlags a := by
  obtain ⟨hV, hR, hW, hX, hU, hrest, _⟩ := Pte.mk.inj (hb.trans (by rw [Pte.mapped, ← hv]))
  have hbit : ∀ flag, has b flag = has a flag → b / flag % 2 = a / flag % 2 := by
    intro flag hflag
    have hiff := decide_eq_decide.mp hflag
    omega
  have hhigh : b / 32 % 32 = a / 32 % 32 := congrArg Fin.val hrest
  rw [pteFlags_sum, pteFlags_sum, hbit _ hV, hbit _ hR, hbit _ hW, hbit _ hX, hbit _ hU, hhigh]

theorem memmove_used {src x : Nat} (h : Sound lay G r) (hx : G.used x) (hn : n ≤ 4096) :
    Returns (memmove (x * PGSIZE) src n) r fun _ r' => Sound lay G r' ∧ Kept (· ≠ x) r r' ∧
      ∀ o < n, r'.byte (x * 4096 + o) = r.byte (src + o) := by
  have hkept : Kept (· ≠ x) r { r with byte := r.byte.move (x * PGSIZE) src n } :=
    fun a ha => Bytes.move_out (by unfold PGSIZE; omega)
  refine ⟨h.write (fun _ _ hS => h.used_not_page hx hS) hkept rfl, hkept, fun o ho => ?_⟩
  refine (Bytes.move_in (by unfold PGSIZE; omega)).trans (congrArg r.byte ?_)
  unfold PGSIZE
  omega

/-- The pages from `j` on that table `S` maps are copies of those of table `R`, with the same flags. -/
def Copied (r r' : Ram) (R S : Table) (j n : Nat) : Prop :=
  ∀ i, j ≤ i → i < j + n → ∃ e q, R.leaf i = some e ∧ S.leaf i = some (e.mapped q) ∧
    ∀ o < 4096, r'.byte (q * 4096 + o) = r.byte (e.ppn * 4096 + o)

theorem uvmcopyLoop_spec {R : Table} (h : Sound lay G r) (hR : G.table d = some R) (hRU : UserMap R k guard)
    (hT : G.table d' = some T) (hU : UserMap T j guard) (hdd : d ≠ d') (hk : j + n = k) :
    Returns (uvmcopyLoop lay d d' n (j * 4096)) r fun ok r' =>
      ok = false ∧ (∃ S, Sound lay (G.setTable d' (some S)) r' ∧ S.leaf = (T.clear 0 j).leaf ∧
        Kept (Other lay G d') r r') ∨
      ok = true ∧ ∃ S, Sound lay (G.setTable d' (some S)) r' ∧ (∀ i, i < j ∨ k ≤ i → S.leaf i = T.leaf i) ∧
        Copied r r' R S j n ∧ Kept (Held lay G d') r r' := by
  have hle := h.pages_le hR hRU
  induction n generalizing G r T j with
  | zero =>
    refine .inr ⟨rfl, T, ?_, fun i _ => rfl, fun i hi hlt => absurd hlt (by omega), Kept.refl⟩
    rw [Vm.setTable_eq hT]
    exact h
  | succ n ih =>
    have hundo : ∀ {S u}, Sound lay (G.setTable d' (some S)) u → UserMap S j guard →
        Returns (uvmunmap lay d' 0 (j * 4096 / PGSIZE) true) u fun _ v =>
          Sound lay (G.setTable d' (some (S.clear 0 j))) v ∧ Kept (Other lay G d') u v := by
      intro S u hS hSU
      have hundo := Space.uvmunmap_last (L := space lay G d') (k := 0) hS (by rwa [Nat.zero_add])
      rw [Nat.zero_mul] at hundo
      rwa [show j * 4096 / PGSIZE = j by unfold PGSIZE; omega]
    have hlt : j < tfVpn := by
      unfold tfVpn
      omega
    have hnone : T.leaf j = none := hU.rest j (Nat.le_refl j) hlt
    obtain ⟨e, he, heu⟩ := hRU.mapped j (by omega)
    obtain ⟨p, hp, hpe, hv, hleafy, hwalk⟩ := walk_leaf h hR he (by unfold trampVpn; omega)
    -- the pages of the parent are no pages of the child
    have hparent : ∀ i f, i < k → R.leaf i = some f → Other lay G d' f.ppn := by
      intro i f hi hf
      refine .inr (.inr ⟨d, R, .leaf i, hdd, hR, ?_⟩)
      have hown : ¬ (i = trampVpn ∨ i = tfVpn) := by
        unfold trampVpn tfVpn
        omega
      simp [Table.at, hown, hf]
    rw [Returns, uvmcopyLoop, post_run_bind hwalk]
    dsimp only
    rw [readPte, post_read_bind]
    generalize r.pte p (j % 512) = pte at hpe
    have hvalid : has pte PTE_V = true := by
      rw [← hv, ← hpe]
      rfl
    have hppn : pteToPage pte = e.ppn := by
      rw [← hpe]
      rfl
    have hflags : (decode (pteFlags pte)).mapped = e.mapped := by
      funext q
      rw [decode_flags, hpe]
    have hperm : (decode (pteFlags pte)).Leafy := by
      have hmapped : ((decode (pteFlags pte)).mapped 0).Leafy := by
        rw [hflags]
        exact hleafy
      exact hmapped
    rw [hvalid, hppn, if_neg (by simp)]
    refine (kalloc_spec h).bind ?_
    rintro o t (⟨rfl, ht, hbyte⟩ | ⟨q, rfl, ht, hq, _, hfree, hkept⟩)
    · rw [← Vm.setTable_eq hT] at ht
      refine Post.bind (hundo ht hU) ?_
      rintro _ u ⟨hu, hku⟩
      exact .inl ⟨rfl, _, hu, rfl, fun a ha => by rw [hku a ha, hbyte]⟩
    have hold : e.ppn ≠ q := by
      rintro rfl
      exact ((hparent j e (by omega) he).apart h).1 hfree
    refine (memmove_used ht (.inl rfl) (Nat.le_refl PGSIZE)).bind ?_
    rintro _ m ⟨hmS, hkm, hmoved⟩
    have hcopy : ∀ o < 4096, m.byte (q * 4096 + o) = r.byte (e.ppn * 4096 + o) := fun o ho =>
      (hmoved o ho).trans (hkept.page hold ho)
    refine (mapFresh (pteFlags pte) h hmS hq hfree (hkept.trans hkm) hcopy hT hlt hnone
      (Nat.mod_lt _ (by decide)) hperm).bind ?_
    rintro ok u (⟨rfl, hback⟩ | ⟨rfl, S, hS, hleaf, hku, hcopy⟩)
    · rw [if_neg Bool.false_ne_true]
      refine hback.bind ?_
      rintro _ v ⟨S, hv, hleaf, hkv⟩
      refine (hundo hv (hU.congr hleaf)).bind ?_
      rintro _ w ⟨hw, hkw⟩
      exact .inl ⟨rfl, _, hw, clear_congr hleaf, hkv.trans hkw⟩
    · rw [if_pos rfl, show j * 4096 + PGSIZE = (j + 1) * 4096 by unfold PGSIZE; omega]
      rw [hflags] at hS
      have hU' : UserMap (S.setLeaf j (some (e.mapped q))) (j + 1) guard := (hU.congr hleaf).push heu
      have hpage : Held lay (G.setTable d' (some (S.setLeaf j (some (e.mapped q))))) d' q :=
        held_leaf hlt Vm.setTable_self Vm.setLeaf_self
      refine (ih hS (by rw [Vm.setTable_other hdd, hR]) Vm.setTable_self hU' (by omega)).mono ?_
      rintro ok w (⟨rfl, Q, hQ, hQleaf, hkw⟩ | ⟨rfl, Q, hQ, hsame, hcopied, hkw⟩)
      · rw [Vm.setTable_setTable] at hQ
        have hclear := @clear_push T S j 0 (some (e.mapped q)) (by rwa [Nat.zero_add]) hleaf
        rw [Nat.zero_add] at hclear
        refine .inl ⟨rfl, Q, hQ, by rw [hQleaf, hclear], ?_⟩
        exact (hku.mono fun x hx => .inl hx).trans (hkw.mono fun x hx => hx.setTable)
      · rw [Vm.setTable_setTable] at hQ
        refine .inr ⟨rfl, Q, hQ, fun i hi => ?_, fun i hi hilt => ?_,
          hku.trans (hkw.mono fun x hx => hx.push hT hnone hleaf)⟩
        · rw [hsame i (by omega), Vm.setLeaf_other (by omega), hleaf]
        · rcases Nat.lt_or_eq_of_le hi with hi | rfl
          · obtain ⟨f, x, hf, hx, hbytes⟩ := hcopied i (by omega) (by omega)
            refine ⟨f, x, hf, hx, fun o ho => ?_⟩
            rw [hbytes o ho, hku.page (.inl (hparent i f (by omega) hf)) ho]
          · refine ⟨e, q, he, ?_, fun o ho => ?_⟩
            · rw [hsame _ (by omega), Vm.setLeaf_self]
            · rw [hkw.page hpage ho, hcopy o ho]

end TweakedXv6.Phys
