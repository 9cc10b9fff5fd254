import TweakedXv6.VmSpace

namespace TweakedXv6.Vm

open Prog

variable {lay : Layout} {G : Ghost} {m t : Mem} {T S R : Table} {d d' q i j k n sz oldsz newsz va tf : Nat}
  {e : Pte} {guard : Nat → Prop} {c : Nat → Pte} {readOk : Nat → Bool} {src : Nat → Nat → Pte}

def SameKernel (T S : Table) : Prop := ∀ i, tfVpn ≤ i → S.leaf i = T.leaf i

def Sized (lay : Layout) (G : Ghost) (d : Nat) (T : Table) (guard : Nat → Prop) (k : Nat) (t : Mem) : Prop :=
  ∃ S, Good lay (G.setTable d (some S)) t ∧ UserMap S k guard ∧ SameKernel T S

theorem SameKernel.trans (h : SameKernel T S) (h' : SameKernel S R) : SameKernel T R :=
  fun i hi => (h' i hi).trans (h i hi)

theorem SameKernel.kernelMap (h : SameKernel T S) (hK : KernelMap lay tf T) :
    KernelMap lay tf S where
  tramp := (h _ (by decide)).trans hK.tramp
  trapframe := (h _ (by decide)).trans hK.trapframe
  above i hi := (h i (by unfold trampVpn at hi; unfold tfVpn; omega)).trans (hK.above i hi)

theorem KernelMap.user_lt (hK : KernelMap lay tf T) (hn : T.leaf n = some e) (hu : e.u = true) : n < tfVpn := by
  by_contra hge
  have hcases : n = tfVpn ∨ n = trampVpn ∨ trampVpn < n := by
    unfold tfVpn at hge ⊢
    unfold trampVpn
    omega
  rcases hcases with rfl | rfl | hgt
  · cases Option.some.inj (hn.symm.trans hK.trapframe)
    cases hu
  · cases Option.some.inj (hn.symm.trans hK.tramp)
    cases hu
  · cases hn.symm.trans (hK.above n hgt)

theorem UserMap.congr (h : UserMap T k guard) (hleaf : S.leaf = T.leaf) : UserMap S k guard :=
  ⟨hleaf ▸ h.mapped, hleaf ▸ h.rest⟩

theorem UserMap.push (h : UserMap T k guard) (hu : e.u = true ∨ guard k) :
    UserMap (T.setLeaf k (some e)) (k + 1) guard where
  mapped i hi := by
    by_cases hik : i = k
    · exact ⟨e, by rw [hik, setLeaf_self], hik ▸ hu⟩
    · rw [setLeaf_other hik]
      exact h.mapped i (by omega)
  rest i hi hlt := by
    rw [setLeaf_other (by omega)]
    exact h.rest i (by omega) hlt

theorem UserMap.clear (h : UserMap T (k + j) guard) : UserMap (T.clear k j) k guard where
  mapped i hi := by
    simp only [Table.clear]
    rw [if_neg (by omega)]
    exact h.mapped i (by omega)
  rest i hi hlt := by
    simp only [Table.clear]
    split
    next => rfl
    next hno => exact h.rest i (by omega) hlt

theorem sameKernel_setLeaf {o : Option Pte} (hn : n < tfVpn) : SameKernel T (T.setLeaf n o) :=
  fun i hi => setLeaf_other (by omega)

theorem sameKernel_clear (h : k + j ≤ tfVpn) : SameKernel T (T.clear k j) := by
  intro i hi
  simp only [Table.clear]
  rw [if_neg (by omega)]

theorem sameKernel_of_leaf (h : S.leaf = T.leaf) : SameKernel T S := fun i _ => by rw [h]

theorem unuse_use (h : ¬ G.used q) : (G.use q).unuse q = G := by
  cases G
  simp only [Ghost.use, Ghost.unuse, Ghost.mk.injEq, and_true]
  funext x
  by_cases hx : x = q
  · subst hx
    simpa using h
  · simp [hx]

theorem Good.pages_le (h : Good lay G m) (hT : G.table d = some T) (hU : UserMap T k guard) : k ≤ 32768 := by
  have hcard : min k 32769 ≤ phystopPage - lay.lo := by
    refine h.part.card_le (w := fun i => .spot d (.leaf i)) ?_ ?_
    · intro i j _ _ heq
      cases heq
      rfl
    · intro i hi
      obtain ⟨e, he, _⟩ := hU.mapped i (by omega)
      have hown : ¬ (i = trampVpn ∨ i = tfVpn) := by
        unfold trampVpn tfVpn
        omega
      exact ⟨e.ppn, T, hT, by simp [Table.at, hown, he]⟩
  have hlo := lay.lo_ge
  unfold phystopPage at hcard
  unfold kernbasePage at hlo
  omega

theorem Sized.trans (h : Sized lay (G.setTable d (some S)) d S guard k t) (hK : SameKernel T S) :
    Sized lay G d T guard k t := by
  obtain ⟨R, hR, hU, hK'⟩ := h
  rw [setTable_setTable] at hR
  exact ⟨R, hR, hU, hK.trans hK'⟩

theorem freewalkEntry_none {f : Nat → VM Unit} (hv : (m.pte q i).v = false) : freewalkEntry f q i m = .ok ((), m) := by
  rw [freewalkEntry, readPte, run_bind run_read, if_neg (by simp [hv]), if_neg (by simp [hv]), run_ret]

def space (lay : Layout) (G : Ghost) (d : Nat) : Space lay d Mem where
  Ok o m := Good lay (G.setTable d o) m
  Kept _ _ := True
  kfree := kfree lay
  entry := freewalkEntry
  clear q i := writePte q i .zero
  unmapPage := unmapPage lay d
  refl _ := trivial
  trans _ _ := trivial
  top h := h.root d _ setTable_self ▸ (h.rep d _ setTable_self).top
  pages_le h hU := h.pages_le setTable_self hU
  entry_leaf h hq hi hleaf := by
    have hent := (h.rep d _ setTable_self).bottom _ _ hq _ hi
    rw [hleaf] at hent
    exact freewalkEntry_none hent
  entry_none h hq hi hp := by
    have hent := (h.rep d _ setTable_self).inner _ _ _ hq _ hi
    rw [hp] at hent
    exact freewalkEntry_none hent
  entry_some h hq hi hp := by
    have hent := (h.rep d _ setTable_self).inner _ _ _ hq _ hi
    rw [hp] at hent
    rw [freewalkEntry, readPte, run_bind run_read, show Mem.pte _ _ _ = .table _ from hent, if_pos (by simp [Pte.table])]
    rfl
  unlink h hl hq hp hchild := by
    have hrun := h.unlink setTable_self hl hq hp hchild
    rw [setTable_setTable] at hrun
    exact hrun.mono fun _ t ht => ⟨ht, trivial⟩
  destroy h hleaf hchild := by
    have hrun := h.destroy setTable_self hleaf hchild
    rw [setTable_setTable] at hrun
    exact hrun.mono fun _ t ht => ⟨ht, trivial⟩
  unmap doFree h hlt hn hown := by
    have hrun := unmapPage_spec doFree h setTable_self hlt hn hown
    rw [setTable_setTable] at hrun
    exact hrun.mono fun _ t ht => ⟨ht, trivial⟩

theorem Good.space (h : Good lay G m) (hT : G.table d = some T) : (space lay G d).Ok (some T) m := by
  change Good lay (G.setTable d (some T)) m
  rwa [setTable_eq hT]

section Undo

variable (h : Good lay (G.setTable d (some S)) m) (hU : UserMap S (k + j) guard) (hK : SameKernel T S)

include h hU hK

theorem Sized.clear (ht : Good lay (G.setTable d (some (S.clear k j))) t) : Sized lay G d T guard k t := by
  have hle := h.pages_le setTable_self hU
  refine ⟨_, ht, hU.clear, hK.trans (sameKernel_clear ?_)⟩
  unfold tfVpn
  omega

theorem uvmunmap_undo : Returns (uvmunmap lay d (k * 4096) j true) m fun _ t => Sized lay G d T guard k t :=
  (Space.uvmunmap_last (L := space lay G d) h hU).mono fun _ _ ht => .clear h hU hK ht.1

theorem uvmdealloc_undo :
    Returns (uvmdealloc lay d ((k + j) * 4096) (k * 4096)) m fun _ t => Sized lay G d T guard k t :=
  (Space.uvmdealloc_undo (L := space lay G d) h hU).mono fun _ _ ht => .clear h hU hK ht.1

end Undo

theorem uvmdealloc_spec (h : Good lay G m) (hT : G.table d = some T) (hU : UserMap T (pages oldsz) guard) :
    Returns (uvmdealloc lay d oldsz newsz) m fun r t => r = min oldsz newsz ∧ Sized lay G d T guard (pages r) t := by
  refine Post.mono (Space.uvmdealloc_spec (h.space hT) hU) ?_
  rintro r t ⟨rfl, ht, _⟩
  have hle : pages (min oldsz newsz) ≤ pages oldsz := by
    unfold pages
    omega
  exact ⟨rfl, .clear (h.space hT) (by rwa [Nat.add_sub_cancel' hle]) (fun _ _ => rfl) ht⟩

theorem mapFresh_spec (perm : Pte) (h : Good lay (G.use q) m) (hq : ¬ G.used q) (hT : G.table d = some T)
    (hU : UserMap T k guard) (hperm : perm.Leafy) (hu : perm.u = true ∨ guard k) :
    Returns (mappages d (k * 4096) PGSIZE q perm) (m.setPage q c) fun ok t =>
      ok = true ∧ Sized lay G d T guard (k + 1) t ∨
      ok = false ∧ Returns (kfree lay q) t fun _ u => Sized lay G d T guard k u := by
  have hle := h.pages_le hT hU
  have hlt : k < tfVpn := by
    unfold tfVpn
    omega
  have hfill := h.setPage (c := c) fun d S hS => h.used_not_page (.inl rfl) hS
  refine (mappages_user perm hfill hq hT hlt (hU.rest k (Nat.le_refl k) hlt) hperm).mono ?_
  rintro ok t (⟨rfl, S, hS, _, hleaf⟩ | ⟨rfl, S, hS, _, hleaf⟩)
  · refine .inr ⟨rfl, (kfree_spec hS (.inl rfl)).mono fun _ u hu => ?_⟩
    rw [unuse_use (by simpa using hq)] at hu
    exact ⟨S, hu, hU.congr hleaf, sameKernel_of_leaf hleaf⟩
  · refine .inl ⟨rfl, _, hS, (hU.congr hleaf).push hu, ?_⟩
    exact (sameKernel_of_leaf hleaf).trans (sameKernel_setLeaf hlt)

theorem uvmallocLoop_spec (h : Good lay G m) (hT : G.table d = some T) (hU : UserMap T (k + j) guard) :
    Returns (uvmallocLoop lay d (k * 4096) newsz n ((k + j) * 4096)) m fun r t =>
      r = 0 ∧ Sized lay G d T guard k t ∨ r = newsz ∧ Sized lay G d T guard (k + j + n) t := by
  induction n generalizing G m T j with
  | zero => exact .inr ⟨rfl, T, (setTable_eq hT).symm ▸ h, hU, fun _ _ => rfl⟩
  | succ n ih =>
    rw [uvmallocLoop]
    refine (kalloc_spec h).bind ?_
    rintro r t (⟨rfl, ht⟩ | ⟨q, rfl, ht, hq, _⟩)
    · refine Post.bind (uvmdealloc_undo ((setTable_eq hT).symm ▸ ht) hU fun _ _ => rfl) fun _ u hu => ?_
      exact .inl ⟨rfl, hu⟩
    · dsimp only
      rw [writePage, post_change_bind]
      refine (mapFresh_spec .user ht hq hT hU rfl (.inl rfl)).bind ?_
      rintro ok u (⟨rfl, S, hS, hSU, hK⟩ | ⟨rfl, hfree⟩)
      · rw [if_pos rfl, show (k + j) * 4096 + PGSIZE = (k + (j + 1)) * 4096 by unfold PGSIZE; omega]
        refine (ih hS setTable_self hSU).mono ?_
        rintro r v (⟨rfl, hv⟩ | ⟨rfl, hv⟩)
        · exact .inl ⟨rfl, hv.trans hK⟩
        · refine .inr ⟨rfl, ?_⟩
          rw [show k + j + (n + 1) = k + (j + 1) + n by omega]
          exact hv.trans hK
      · rw [if_neg (by simp)]
        refine hfree.bind ?_
        rintro _ v ⟨S, hS, hSU, hK⟩
        refine (uvmdealloc_undo hS hSU hK).bind fun _ w hw => ?_
        exact .inl ⟨rfl, hw⟩

theorem uvmalloc_spec (h : Good lay G m) (hT : G.table d = some T) (hU : UserMap T (pages oldsz) guard) :
    Returns (uvmalloc lay d oldsz newsz) m fun r t =>
      r = 0 ∧ Sized lay G d T guard (pages oldsz) t ∨
      r = max oldsz newsz ∧ Sized lay G d T guard (pages r) t := by
  have hle := h.pages_le hT hU
  have hold : oldsz ≤ 134217728 := by
    unfold pages at hle
    omega
  unfold uvmalloc
  split
  next hlt =>
    rw [Returns, post_ret, Nat.max_eq_left (by omega)]
    exact .inr ⟨rfl, T, (setTable_eq hT).symm ▸ h, hU, fun _ _ => rfl⟩
  next hlt =>
    rw [pgroundup_eq hold, Nat.max_eq_right (by omega)]
    refine (uvmallocLoop_spec (j := 0) h hT hU).mono ?_
    rintro r t (⟨rfl, ht⟩ | ⟨rfl, ht⟩)
    · exact .inl ⟨rfl, ht⟩
    · refine .inr ⟨rfl, ?_⟩
      have hn : pages oldsz + 0 + (r - pages oldsz * 4096 + 4095) / PGSIZE = pages r := by
        unfold pages PGSIZE
        omega
      exact hn ▸ ht

theorem uvmcopyLoop_spec (h : Good lay G m) (hR : G.table d = some R) (hRU : UserMap R k guard)
    (hT : G.table d' = some T) (hU : UserMap T j guard) (hdd : d ≠ d') (hk : j + n = k) :
    Returns (uvmcopyLoop lay d d' n (j * 4096)) m fun ok t =>
      ok = false ∧ Sized lay G d' T guard 0 t ∨ ok = true ∧ Sized lay G d' T guard k t := by
  have hle := h.pages_le hR hRU
  induction n generalizing G m T j with
  | zero =>
    have hjk : j = k := by omega
    exact .inr ⟨rfl, T, (setTable_eq hT).symm ▸ h, hjk ▸ hU, fun _ _ => rfl⟩
  | succ n ih =>
    have hundo : ∀ {S u}, Good lay (G.setTable d' (some S)) u → UserMap S j guard → SameKernel T S →
        Returns (uvmunmap lay d' 0 (j * 4096 / PGSIZE) true) u fun _ v => Sized lay G d' T guard 0 v := by
      intro S u hS hSU hK
      have hundo := uvmunmap_undo (k := 0) hS (by rwa [Nat.zero_add]) hK
      rwa [Nat.zero_mul, ← show j * 4096 / PGSIZE = j by unfold PGSIZE; omega] at hundo
    obtain ⟨e, he, heu⟩ := hRU.mapped j (by omega)
    obtain ⟨p, hp, hpe, hv, hleafy, hwalk⟩ := walk_leaf h hR he (by unfold trampVpn; omega)
    rw [Returns, uvmcopyLoop, post_run_bind hwalk]
    dsimp only
    rw [readPte, post_read_bind, hpe, if_neg (by simp [hv])]
    refine (kalloc_spec h).bind ?_
    rintro r t (⟨rfl, ht⟩ | ⟨q, rfl, ht, hq, _⟩)
    · refine Post.bind (hundo ((setTable_eq hT).symm ▸ ht) hU fun _ _ => rfl) fun _ u hu => ?_
      exact .inl ⟨rfl, hu⟩
    · dsimp only
      rw [post_read_bind, writePage, post_change_bind]
      refine (mapFresh_spec e ht hq hT hU hleafy heu).bind ?_
      rintro ok u (⟨rfl, S, hS, hSU, hK⟩ | ⟨rfl, hfree⟩)
      · rw [if_pos rfl, show j * 4096 + PGSIZE = (j + 1) * 4096 by unfold PGSIZE; omega]
        refine (ih hS (by rw [setTable_other hdd, hR]) setTable_self hSU (by omega)).mono ?_
        rintro ok v (⟨rfl, hv⟩ | ⟨rfl, hv⟩)
        · exact .inl ⟨rfl, hv.trans hK⟩
        · exact .inr ⟨rfl, hv.trans hK⟩
      · rw [if_neg (by simp)]
        refine hfree.bind ?_
        rintro _ v ⟨S, hS, hSU, hK⟩
        refine (hundo hS hSU hK).bind fun _ w hw => ?_
        exact .inl ⟨rfl, hw⟩

theorem uvmcopy_spec (h : Good lay G m) (hR : G.table d = some R) (hRU : UserMap R (pages sz) guard)
    (hT : G.table d' = some T) (hU : UserMap T 0 guard) (hdd : d ≠ d') : Returns (uvmcopy lay d d' sz) m fun ok t =>
      ok = false ∧ Sized lay G d' T guard 0 t ∨ ok = true ∧ Sized lay G d' T guard (pages sz) t := by
  have hstart := uvmcopyLoop_spec (j := 0) h hR hRU hT hU hdd (Nat.zero_add _)
  rwa [Nat.zero_mul] at hstart

theorem uvmclear_leaf (h : Good lay G m) (hT : G.table d = some T) (he : T.leaf n = some e)
    (hlt : n < trampVpn + 1) : Returns (uvmclear d (n * 4096)) m fun _ t =>
      Good lay (G.setTable d (some (T.setLeaf n (some { e with u := false })))) t := by
  obtain ⟨p, hp, hpe, hv, hleafy, hwalk⟩ := walk_leaf h hT he hlt
  rw [Returns, uvmclear, post_run_bind hwalk]
  dsimp only
  rw [readPte, post_read_bind, hpe]
  refine h.same hT (fun a => ?_) rfl ((h.rep d T hT).setLeaf (h.distinct hT) hp ⟨rfl, hv, hleafy⟩)
    (fun x hx => setPte_other fun heq => hx ⟨0, n / 512, heq ▸ hp⟩) rfl
  rw [at_setLeaf]
  split
  next ha => simp [ha, Table.at, he]
  next => rfl

theorem UserMap.close (h : UserMap T k guard) (hn : n < k) :
    UserMap (T.setLeaf n (some { e with u := false })) k fun i => guard i ∨ i = n where
  mapped i hi := by
    by_cases hin : i = n
    · exact ⟨_, by rw [hin, setLeaf_self], .inr (.inr hin)⟩
    · rw [setLeaf_other hin]
      obtain ⟨f, hf, hfu⟩ := h.mapped i hi
      exact ⟨f, hf, hfu.imp_right .inl⟩
  rest i hi hlt := by
    rw [setLeaf_other (by omega)]
    exact h.rest i hi hlt

section Mapped

variable (h : Good lay G m) (hT : G.table d = some T)

include h hT

theorem uvmclear_spec (hU : UserMap T k guard) (hn : n < k) :
    Returns (uvmclear d (n * 4096)) m fun _ t => Sized lay G d T (fun i => guard i ∨ i = n) k t := by
  have hle := h.pages_le hT hU
  have hlt : n < tfVpn := by
    unfold tfVpn
    omega
  obtain ⟨e, he, _⟩ := hU.mapped n hn
  refine (uvmclear_leaf h hT he (by unfold trampVpn; omega)).mono fun _ t ht => ?_
  exact ⟨_, ht, hU.close hn, sameKernel_setLeaf hlt⟩

theorem walkaddr_spec : Returns (walkaddr d va) m fun r t => t = m ∧
      (∀ pa, r = some pa → ∃ e, T.leaf (va / 4096) = some e ∧ e.u = true ∧ e.ppn = pa) ∧
      (r = none → va < MAXVA → ∀ e, T.leaf (va / 4096) = some e → e.u = false) := by
  have hrep := h.rep d T hT
  unfold walkaddr
  split
  next hge => exact ⟨rfl, fun pa hpa => (by cases hpa), fun _ hlt => absurd hge (Nat.not_le.mpr hlt)⟩
  next hlt =>
    have hwalk := walk_find hrep (Nat.not_le.mp hlt)
    rw [h.root d T hT] at hwalk
    rw [Returns, post_run_bind hwalk]
    cases hp : T.node 0 (va / 4096 / 512) with
    | none =>
      refine ⟨rfl, fun pa hpa => (by cases hpa), fun _ _ e he => ?_⟩
      exact absurd hp (hrep.leaf_parent _ (by simp [he]))
    | some p =>
      have hent := hrep.bottom _ p hp (va / 4096 % 512) (Nat.mod_lt _ (by decide))
      rw [show 512 * (va / 4096 / 512) + va / 4096 % 512 = va / 4096 by omega] at hent
      dsimp only [Option.map_some]
      rw [readPte, post_read_bind]
      cases hleaf : T.leaf (va / 4096) with
      | none =>
        have hv : (m.pte p (va / 4096 % 512)).v = false := by simpa [hleaf, LeafEntry] using hent
        rw [if_pos hv]
        exact ⟨rfl, fun pa hpa => (by cases hpa), fun _ _ e he => by cases he⟩
      | some e =>
        rw [hleaf] at hent
        obtain ⟨heq, hv, _⟩ := hent
        rw [heq, if_neg (by simp [hv])]
        split
        next hu =>
          refine ⟨rfl, fun pa hpa => (by cases hpa), fun _ _ f hf => ?_⟩
          cases hf
          exact hu
        next hu =>
          refine ⟨rfl, fun pa hpa => ?_, fun hr => by cases hr⟩
          exact ⟨e, rfl, by simpa using hu, Option.some.inj hpa⟩

theorem Good.write (hK : KernelMap lay tf T) (hn : T.leaf n = some e) (hu : e.u = true) :
    Good lay G (m.setPage e.ppn c) := by
  exact h.setPage fun _ _ hS => h.leaf_not_page hT (Table.at_user (hK.user_lt hn hu) hn) hS

theorem copyout_spec {fuel dstva len : Nat} {src : Nat → Pte} (hK : KernelMap lay tf T) :
    Returns (copyout d src fuel dstva len) m fun _ t => Good lay G t := by
  induction fuel generalizing m dstva len with
  | zero => cases len <;> exact h
  | succ fuel ih =>
    cases len with
    | zero => exact h
    | succ len =>
      rw [copyout.eq_3 _ _ _ _ _ (by simp)]
      refine (walkaddr_spec h hT).bind ?_
      rintro r t ⟨rfl, hsome, _⟩
      cases r with
      | none => exact h
      | some pa =>
        obtain ⟨e, he, hu, rfl⟩ := hsome pa rfl
        dsimp only
        rw [writePage, post_change_bind]
        exact ih (h.write hT hK he hu)

theorem loadsegLoop_spec (hK : KernelMap lay tf T)
    (hmap : ∀ j, i ≤ j → j < i + n → ∃ e, T.leaf (va + j) = some e ∧ e.u = true) :
    Returns (loadsegLoop d (va * 4096) readOk src n i) m fun _ t => Good lay G t := by
  induction n generalizing m i with
  | zero => exact h
  | succ n ih =>
    obtain ⟨e, he, hu⟩ := hmap i (Nat.le_refl i) (by omega)
    have hlt := hK.user_lt he hu
    have hdiv : (va * 4096 + i * PGSIZE) / 4096 = va + i := by
      unfold PGSIZE
      omega
    rw [loadsegLoop]
    refine (walkaddr_spec h hT).bind ?_
    rintro r t ⟨rfl, hsome, hnone⟩
    rw [hdiv] at hsome hnone
    cases r with
    | none =>
      have hva : va * 4096 + i * PGSIZE < MAXVA := by
        unfold tfVpn at hlt
        unfold MAXVA PGSIZE
        omega
      cases hu.symm.trans (hnone rfl hva e he)
    | some pa =>
      obtain ⟨f, hf, hfu, rfl⟩ := hsome pa rfl
      have hwrite := h.write (c := src i) hT hK hf hfu
      dsimp only
      rw [writePage, post_change_bind]
      split
      next => exact ih hwrite fun j hj hjn => hmap j (by omega) (by omega)
      next => exact hwrite

theorem loadseg_spec (hK : KernelMap lay tf T) (hU : UserMap T k fun _ => False) (hal : va % 4096 = 0)
    (hsz : va + sz ≤ k * 4096) : Returns (loadseg d va sz readOk src) m fun _ t => Good lay G t := by
  have hmod := Nat.mod_le sz 4294967296
  have hva : va / 4096 * 4096 = va := by omega
  rw [loadseg, ← hva]
  refine loadsegLoop_spec h hT hK fun j _ hj => ?_
  unfold PGSIZE at hj
  obtain ⟨e, he, hu⟩ := hU.mapped (va / 4096 + j) (by omega)
  exact ⟨e, he, hu.resolve_right id⟩

end Mapped

theorem setTable_none (h : G.table d = none) : G.setTable d none = G := by
  cases G
  simp only [Ghost.setTable, Ghost.mk.injEq, true_and]
  funext x
  split
  next hx => rw [hx, ← h]
  next => rfl

theorem space_maps {pa : Nat} {perm : Pte} (hva : va = n * 4096) (hn : n = trampVpn ∨ n = tfVpn) (hperm : perm.Leafy) :
    (space lay G d).Maps (mappages d va PGSIZE pa perm) n (perm.mapped pa) := by
  intro T m hm hnone
  subst hva
  refine (mappages_kernel perm hm setTable_self hn hnone hperm).mono ?_
  rintro ok t (⟨rfl, S, hS, _, hleaf⟩ | ⟨rfl, S, hS, _, hleaf⟩)
  · rw [setTable_setTable] at hS
    exact ⟨trivial, S, hleaf, hS⟩
  · rw [setTable_setTable] at hS
    exact ⟨trivial, S, hleaf, hS⟩

theorem procPagetable_spec (h : Good lay G m) : Returns (procPagetable lay tf) m fun r t =>
    r = none ∧ Good lay G t ∨ ∃ d S, r = some d ∧ G.table d = none ∧ Good lay (G.setTable d (some S)) t ∧
      KernelMap lay tf S ∧ UserMap S 0 fun _ => False := by
  refine (uvmcreate_spec h).bind ?_
  rintro r t (⟨rfl, ht⟩ | ⟨d, rfl, hd, _, ht⟩)
  · exact .inl ⟨rfl, ht⟩
  · refine Post.mono (Space.procPagetable_spec (L := space lay G d) (space_maps rfl (.inl rfl) rfl)
      (space_maps rfl (.inr rfl) rfl) ht) ?_
    rintro r u ⟨_, ⟨rfl, hu⟩ | ⟨rfl, S, hS, hK, hU⟩⟩
    · exact .inl ⟨rfl, setTable_none hd ▸ hu⟩
    · exact .inr ⟨d, S, rfl, hd, hS, hK, hU⟩

theorem procFreepagetable_spec (h : Good lay G m) (hT : G.table d = some T)
    (hK : KernelMap lay tf T) (hU : UserMap T (pages sz) guard) :
    Returns (procFreepagetable lay d sz) m fun _ t => Good lay (G.setTable d none) t :=
  (Space.procFreepagetable_spec (h.space hT) hK hU).mono fun _ _ ht => ht.1

end TweakedXv6.Vm
