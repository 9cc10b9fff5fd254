import TweakedXv6.RamUser

namespace TweakedXv6.Phys

open Prog
open Vm (PGSIZE Layout Pte Ghost Good Table UserMap KernelMap Space pages trampVpn tfVpn)

variable {lay : Layout} {G : Ghost} {r : Ram} {T S : Table} {d d' q i k l b n sz tf : Nat} {e : Pte} {guard : Nat → Prop}

theorem uvmcopy_spec {R : Table} (h : Sound lay G r) (hR : G.table d = some R) (hRU : UserMap R (pages sz) guard)
    (hT : G.table d' = some T) (hU : UserMap T 0 guard) (hdd : d ≠ d') : Returns (uvmcopy lay d d' sz) r fun ok r' =>
      ok = false ∧ (∃ S, Sound lay (G.setTable d' (some S)) r' ∧ S.leaf = T.leaf ∧ Kept (Other lay G d') r r') ∨
      ok = true ∧ ∃ S, Sound lay (G.setTable d' (some S)) r' ∧ (∀ i, pages sz ≤ i → S.leaf i = T.leaf i) ∧
        Copied r r' R S 0 (pages sz) ∧ Kept (Held lay G d') r r' := by
  have hstart := uvmcopyLoop_spec (j := 0) h hR hRU hT hU hdd (Nat.zero_add _)
  rw [Nat.zero_mul, Vm.clear_zero] at hstart
  refine hstart.mono ?_
  rintro ok r' (hbad | ⟨rfl, S, hS, hsame, hcopied, hkept⟩)
  · exact .inl hbad
  · exact .inr ⟨rfl, S, hS, fun i hi => hsame i (.inr hi), hcopied, hkept⟩

theorem uvmclear_spec (h : Sound lay G r) (hT : G.table d = some T) (he : T.leaf n = some e) (hlt : n < trampVpn + 1) :
    Returns (uvmclear d (n * 4096)) r fun _ r' =>
      Sound lay (G.setTable d (some (T.setLeaf n (some { e with u := false })))) r' ∧ Kept (Held lay G d) r r' := by
  obtain ⟨p, hp, _, _, _, hwalk⟩ := walk_leaf h hT he hlt
  have hkept : Post (fun _ => True) (uvmclear d (n * 4096)) r fun _ r' => Kept (Held lay G d) r r' := by
    rw [uvmclear, post_run_bind hwalk]
    dsimp only
    rw [readPte, post_read_bind]
    refine (setPte_kept (Nat.mod_lt _ (by decide))).mono fun x hx hxp => ?_
    exact (hx.apart h).2 T hT ⟨0, _, hxp ▸ hp⟩
  exact h.run_kept uvmclear_refines (Vm.uvmclear_leaf h hT he hlt) hkept

def Busy (lay : Layout) (G : Ghost) (q : Nat) : Prop :=
  ¬ lay.Managed q ∨ G.used q ∨ ∃ d T s, G.table d = some T ∧ T.at s = some q

theorem Busy.other (hb : Busy lay G q) (hd : G.table d = none) : Other lay G d q := by
  rcases hb with hm | hu | ⟨d', T, s, hT, hs⟩
  · exact .inl hm
  · exact .inr (.inl hu)
  · refine .inr (.inr ⟨d', T, s, ?_, hT, hs⟩)
    rintro rfl
    simp [hd] at hT

theorem Busy.not_free (h : Sound lay G r) (hb : Busy lay G q) : q ∉ r.free := by
  intro hq
  rcases hb with hm | hu | ⟨d, T, s, hT, hs⟩
  · exact hm (h.part.within .free q hq)
  · cases h.part.unique .free .used q hq hu
  · cases h.part.unique .free (.spot d s) q hq ⟨T, hT, hs⟩

theorem uvmcreate_spec (h : Sound lay G r) : Returns uvmcreate r fun o r' => Kept (Busy lay G) r r' ∧
    (o = none ∧ Sound lay G r' ∨
      ∃ q, o = some q ∧ G.table q = none ∧ Sound lay (G.setTable q (some (.empty q))) r') := by
  refine (kalloc_spec h).bind ?_
  rintro o t (⟨rfl, ht, hbyte⟩ | ⟨q, rfl, ht, hu, hpage, hfree, hkept⟩)
  · exact ⟨fun a _ => by rw [hbyte], .inl ⟨rfl, ht⟩⟩
  · have hnone : G.table q = none := by
      by_contra hne
      obtain ⟨T, hT⟩ := Option.ne_none_iff_exists'.mp hne
      exact hpage q T hT (h.root_page hT)
    have hfresh : ∀ x, Busy lay G x → x ≠ q := by
      rintro x hx rfl
      exact hx.not_free h hfree
    have hreads := ht.reads.fillPage (q := q) (b := 0)
    rw [decode_zero] at hreads
    refine ⟨(hkept.mono hfresh).trans (fillPage_kept.mono hfresh), .inr ⟨q, rfl, hnone, ?_⟩⟩
    exact hreads.sound (Good.create ht hu)

theorem space_maps {va pa perm : Nat} {e : Pte} (hva : va = n * 4096) (hn : n = trampVpn ∨ n = tfVpn)
    (hpa : pa < 4503599627370496) (hperm : perm < 1024) (he : decode perm = e) (hleafy : e.Leafy) :
    (space lay G d).Maps (mappages d va PGSIZE pa perm) n (e.mapped pa) := by
  intro T r hr hnone
  subst hva he
  refine (mappages_kernel perm hr Vm.setTable_self hn hnone hpa hperm hleafy).mono ?_
  rintro ok t ⟨hkt, ht⟩
  refine ⟨hkt.mono fun x hx => .inl hx.setTable, ?_⟩
  rcases ht with ⟨rfl, S, hS, hleaf⟩ | ⟨rfl, S, hS, hleaf⟩
  · rw [Vm.setTable_setTable] at hS
    exact ⟨S, hleaf, hS⟩
  · rw [Vm.setTable_setTable] at hS
    exact ⟨S, hleaf, hS⟩

theorem procPagetable_spec (htf : tf < 4503599627370496) (h : Sound lay G r) :
    Returns (procPagetable lay tf) r fun o r' => Kept (Busy lay G) r r' ∧
      (o = none ∧ Sound lay G r' ∨ ∃ d S, o = some d ∧ G.table d = none ∧ Sound lay (G.setTable d (some S)) r' ∧
        KernelMap lay tf S ∧ UserMap S 0 fun _ => False) := by
  refine (uvmcreate_spec h).bind ?_
  rintro o t ⟨hkt, ⟨rfl, ht⟩ | ⟨d, rfl, hd, ht⟩⟩
  · exact ⟨hkt, .inl ⟨rfl, ht⟩⟩
  · have hlt : lay.tramp < 4503599627370496 := by
      obtain ⟨hlo, hhi⟩ := ht.part.within (.spot d (.node 2 0)) d ⟨_, Vm.setTable_self, rfl⟩
      have := lay.tramp_lt
      unfold Vm.phystopPage at hhi
      omega
    refine Post.mono (Space.procPagetable_spec (L := space lay G d) (space_maps rfl (.inl rfl) hlt (by decide) (by decide) rfl)
      (space_maps rfl (.inr rfl) htf (by decide) (by decide) rfl) ht) ?_
    rintro o u ⟨hku, ho⟩
    refine ⟨hkt.trans (hku.mono fun x hx => hx.other hd), ?_⟩
    rcases ho with ⟨rfl, hu⟩ | ⟨rfl, S, hS, hK, hU⟩
    · exact .inl ⟨rfl, Vm.setTable_none hd ▸ hu⟩
    · exact .inr ⟨d, S, rfl, hd, hS, hK, hU⟩

theorem procFreepagetable_spec (h : Sound lay G r) (hT : G.table d = some T) (hK : KernelMap lay tf T)
    (hU : UserMap T (pages sz) guard) :
    Returns (procFreepagetable lay d sz) r fun _ r' => Sound lay (G.setTable d none) r' ∧ Kept (Other lay G d) r r' :=
  Space.procFreepagetable_spec (h.space hT) hK hU

end TweakedXv6.Phys
