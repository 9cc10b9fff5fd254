import TweakedXv6.RamCopy
import TweakedXv6.RamView

namespace TweakedXv6.Phys

open Prog
open Vm (PGSIZE MAXVA phystopPage Layout Mem Pte VM Ghost Good Table Represents trampVpn tfVpn)

def Sound (lay : Layout) (G : Ghost) (r : Ram) : Prop := Good lay G (view r)

def Kept (P : Nat → Prop) (r r' : Ram) : Prop := ∀ a, P (a / 4096) → r'.byte a = r.byte a

def Other (lay : Layout) (G : Ghost) (d q : Nat) : Prop :=
  ¬ lay.Managed q ∨ G.used q ∨ ∃ d' T s, d' ≠ d ∧ G.table d' = some T ∧ T.at s = some q

/-- The page is neither free nor a part of table `d`, but it may be in the memory that the table maps. -/
def Held (lay : Layout) (G : Ghost) (d q : Nat) : Prop :=
  Other lay G d q ∨ ∃ T n, G.table d = some T ∧ T.at (.leaf n) = some q

variable {lay : Layout} {G G' : Ghost} {r r' t : Ram} {m : Mem} {T S : Table} {d q i n va pa x : Nat}
  {P Q : Nat → Prop} {e : Pte} {α : Type}

theorem Represents.congr {pte pte' : Nat → Nat → Pte} (h : Represents pte T)
    (hpte : ∀ q i, i < 512 → pte' q i = pte q i) : Represents pte' T := by
  refine { h with inner := fun l a q hq j hj => ?_, bottom := fun a q hq k hk => ?_ }
  · rw [hpte q j hj]
    exact h.inner l a q hq j hj
  · rw [hpte q k hk]
    exact h.bottom a q hq k hk

theorem view_pte (hi : i < 512) : (view r).pte q i = decode (r.pte q i) := by
  change decode (r.table q i) = _
  rw [table_eq hi]

theorem Reads.sound (hR : Reads r m) (h : Good lay G m) : Sound lay G r where
  part := by
    refine h.part.congr fun b x => ?_
    cases b with
    | free =>
      change x ∈ r.free ↔ x ∈ m.free
      rw [hR.free]
    | used => exact Iff.rfl
    | spot d s => exact Iff.rfl
  nodup := by
    change r.free.Nodup
    rw [← hR.free]
    exact h.nodup
  root := h.root
  rep d T hT := Represents.congr (h.rep d T hT) fun q i hi => by rw [view_pte hi, hR.pte q i hi]

theorem Sound.reads (h : Sound lay G r) : Reads r (view r) := by
  refine ⟨rfl, rfl, fun q i hi => view_pte hi, fun q hq => ?_⟩
  have hm := h.part.within .free q hq
  have hlt : q < phystopPage := hm.2
  unfold phystopPage at hlt
  omega

theorem Sound.run {f : Kmem α} {g : VM α} {Q : α → Mem → Prop} (h : Sound lay G r) (hf : Refines Reads f g)
    (hg : Returns g (view r) Q) : Returns f r fun a r' => ∃ m, Reads r' m ∧ Q a m := hf.returns h.reads hg

theorem Kept.refl : Kept P r r := fun _ _ => rfl

theorem Kept.trans (h : Kept P r r') (h' : Kept P r' t) : Kept P r t := fun a ha => (h' a ha).trans (h a ha)

theorem Kept.mono (h : Kept P r r') (hPQ : ∀ q, Q q → P q) : Kept Q r r' := fun a ha => h a (hPQ _ ha)

theorem setPte_kept (hi : i < 512) {pte : Nat} : Kept (· ≠ q) r (r.setPte q i pte) :=
  fun a ha => Bytes.setDword_byte (by omega)

theorem fillPage_kept {b : UInt8} : Kept (· ≠ q) r (r.fillPage q b) :=
  fun a ha => Bytes.fill_out (by unfold PGSIZE; omega)

theorem Kept.page {o : Nat} (h : Kept P r r') (hq : P q) (ho : o < 4096) :
    r'.byte (q * 4096 + o) = r.byte (q * 4096 + o) := by
  refine h _ ?_
  rwa [show (q * 4096 + o) / 4096 = q by omega]

theorem Kept.table (h : Kept P r r') (hq : P q) : r'.table q = r.table q := table_congr fun _ ho => h.page hq ho

theorem Sound.run_kept {f : Kmem α} {g : VM α} (h : Sound lay G r) (hf : Refines Reads f g)
    (hg : Returns g (view r) fun _ m => Good lay G' m) (hk : Post (fun _ => True) f r fun _ r' => Kept P r r') :
    Returns f r fun _ r' => Sound lay G' r' ∧ Kept P r r' := by
  refine ((h.run hf hg).and hk).mono ?_
  rintro _ r' ⟨⟨m, hR, hm⟩, hk⟩
  exact ⟨hR.sound hm, hk⟩

theorem Sound.write (h : Sound lay G r) (hq : ∀ d T, G.table d = some T → ¬ T.Page q) (hk : Kept (· ≠ q) r r')
    (hfree : r'.free = r.free) : Sound lay G r' where
  part := by
    refine h.part.congr fun b x => ?_
    cases b with
    | free =>
      change x ∈ r'.free ↔ x ∈ r.free
      rw [hfree]
    | used => exact Iff.rfl
    | spot d s => exact Iff.rfl
  nodup := by
    change r'.free.Nodup
    rw [hfree]
    exact h.nodup
  root := h.root
  rep d T hT := by
    refine (h.rep d T hT).frame fun p hp => ?_
    have hpq : p ≠ q := fun heq => hq d T hT (heq ▸ hp)
    funext i
    change decode (r'.table p i) = decode (r.table p i)
    rw [hk.table hpq]

theorem Other.apart (h : Sound lay G r) (ho : Other lay G d q) :
    q ∉ r.free ∧ ∀ T s, G.table d = some T → T.at s ≠ some q := by
  rcases ho with hm | hu | ⟨d', T', s', hd, hT', hs'⟩
  · exact ⟨fun hq => hm (h.part.within .free q hq), fun T s hT hs => hm (h.part.within (.spot d s) q ⟨T, hT, hs⟩)⟩
  · refine ⟨fun hq => ?_, fun T s hT hs => ?_⟩
    · cases h.part.unique .free .used q hq hu
    · cases h.part.unique (.spot d s) .used q ⟨T, hT, hs⟩ hu
  · refine ⟨fun hq => ?_, fun T s hT hs => ?_⟩
    · cases h.part.unique .free (.spot d' s') q hq ⟨T', hT', hs'⟩
    · cases h.part.unique (.spot d s) (.spot d' s') q ⟨T, hT, hs⟩ ⟨T', hT', hs'⟩
      exact hd rfl

theorem Held.apart (h : Sound lay G r) (hh : Held lay G d q) : q ∉ r.free ∧ ∀ T, G.table d = some T → ¬ T.Page q := by
  rcases hh with ho | ⟨T, n, hT, hn⟩
  · obtain ⟨hfree, hat⟩ := ho.apart h
    refine ⟨hfree, fun T hT hpage => ?_⟩
    obtain ⟨l, a, ha⟩ := hpage
    exact hat T (.node l a) hT ha
  · refine ⟨fun hq => ?_, fun T' hT' => h.leaf_not_page hT hn hT'⟩
    cases h.part.unique .free (.spot d (.leaf n)) q hq ⟨T, hT, hn⟩

theorem Other.mono (ho : Other lay G d q) (hu : ∀ x, G.used x → G'.used x)
    (ht : ∀ d', d' ≠ d → G'.table d' = G.table d') : Other lay G' d q := by
  rcases ho with hm | hq | ⟨d', T', s, hd, hT', hs⟩
  · exact .inl hm
  · exact .inr (.inl (hu q hq))
  · exact .inr (.inr ⟨d', T', s, hd, by rw [ht d' hd, hT'], hs⟩)

theorem Other.setTable {o : Option Table} (ho : Other lay G d q) : Other lay (G.setTable d o) d q :=
  ho.mono (fun _ h => h) fun _ hd => Vm.setTable_other hd

theorem Other.use (ho : Other lay G d q) : Other lay (G.use x) d q :=
  ho.mono (fun _ h => .inr h) fun _ _ => rfl

theorem Held.use (hh : Held lay G d q) : Held lay (G.use x) d q := by
  rcases hh with ho | hleaf
  · exact .inl ho.use
  · exact .inr hleaf

theorem Held.setTable (hh : Held lay G d q) (hT : G.table d = some T) (hleaf : ∀ n e, T.leaf n = some e → S.leaf n = some e) :
    Held lay (G.setTable d (some S)) d q := by
  rcases hh with ho | ⟨T', n, hT', hn⟩
  · exact .inl ho.setTable
  · cases hT.symm.trans hT'
    refine .inr ⟨S, n, Vm.setTable_self, ?_⟩
    simp only [Table.at] at hn ⊢
    split at hn
    next => cases hn
    next hown =>
      obtain ⟨e, he, hq⟩ := Option.map_eq_some_iff.mp hn
      rw [if_neg hown, hleaf n e he, Option.map_some, hq]

theorem kalloc_bytes : Returns kalloc r fun o r' => o = none ∧ r'.byte = r.byte ∨
    ∃ q, o = some q ∧ q ∈ r.free ∧ Kept (· ≠ q) r r' := by
  by_cases hf : r.fails 0 = true
  · have hrun : kalloc r = .ok (none, { r with fails := fun n => r.fails (n + 1) }) := if_pos hf
    unfold Returns Post
    rw [hrun]
    exact .inl ⟨rfl, rfl⟩
  · cases hfree : r.free with
    | nil =>
      have hrun : kalloc r = .ok (none, { r with fails := fun n => r.fails (n + 1) }) := by
        simp [kalloc, hf, hfree]
      unfold Returns Post
      rw [hrun]
      exact .inl ⟨rfl, rfl⟩
    | cons q rest =>
      have hrun : kalloc r = .ok (some q, { r.fillPage q 5 with free := rest, fails := fun n => r.fails (n + 1) }) := by
        simp only [kalloc, hf, hfree, Bool.false_eq_true, if_false]
        rfl
      unfold Returns Post
      rw [hrun]
      exact .inr ⟨q, rfl, List.mem_cons_self, fillPage_kept⟩

theorem kalloc_spec (h : Sound lay G r) : Returns kalloc r fun o r' =>
    o = none ∧ Sound lay G r' ∧ r'.byte = r.byte ∨
      ∃ q, o = some q ∧ Sound lay (G.use q) r' ∧ ¬ G.used q ∧ (∀ d T, G.table d = some T → ¬ T.Page q) ∧
        q ∈ r.free ∧ Kept (· ≠ q) r r' := by
  refine ((h.run kalloc_refines (Vm.kalloc_spec h)).and kalloc_bytes).mono ?_
  rintro o r' ⟨⟨m, hR, hm⟩, hb⟩
  rcases hm with ⟨rfl, hm⟩ | ⟨q, rfl, hm, hu, hpage⟩
  · rcases hb with ⟨_, hb⟩ | ⟨q, hq, _⟩
    · exact .inl ⟨rfl, hR.sound hm, hb⟩
    · cases hq
  · rcases hb with ⟨hq, _⟩ | ⟨q', hq, hfree, hkept⟩
    · cases hq
    · cases hq
      exact .inr ⟨q, rfl, hR.sound hm, hu, hpage, hfree, hkept⟩

theorem kfree_kept : Post (fun _ => True) (kfree lay q) r fun _ r' => Kept (· ≠ q) r r' := by
  unfold kfree
  split
  next => trivial
  next => exact fillPage_kept

theorem kfree_spec (h : Sound lay G r) (hq : G.used q) :
    Returns (kfree lay q) r fun _ r' => Sound lay (G.unuse q) r' ∧ Kept (· ≠ q) r r' :=
  h.run_kept kfree_refines (Vm.kfree_spec h hq) kfree_kept

theorem walkStep_kept {alloc : Bool} (hi : i < 512) : Post (fun _ => True) (walkStep q i alloc) r fun _ r' =>
    Kept (fun x => x ≠ q ∧ x ∉ r.free) r r' := by
  rw [walkStep, readPte, post_read_bind]
  split
  next => exact fun a _ => rfl
  split
  next =>
    refine Post.bind (kalloc_bytes.mono_panic fun _ _ => trivial) ?_
    rintro o t (⟨rfl, ht⟩ | ⟨x, rfl, hx, hkept⟩)
    · exact fun a _ => by rw [ht]
    · dsimp only
      rw [fillPage, post_change_bind, writePte, post_change_bind, post_ret]
      have hne : ∀ y, y ≠ q ∧ y ∉ r.free → y ≠ x := by
        rintro y ⟨_, hy⟩ rfl
        exact hy hx
      exact (hkept.mono hne).trans ((fillPage_kept.mono hne).trans ((setPte_kept hi).mono fun y hy => hy.1))
  next => exact fun a _ => rfl

theorem walk_spec (h : Sound lay G r) (hT : G.table d = some T) (hva : va < MAXVA) :
    Returns (walk d va true) r fun o r' => ∃ S, Sound lay (G.setTable d (some S)) r' ∧ S.root = T.root ∧
      S.leaf = T.leaf ∧ (o = none ∨ ∃ q, o = some (q, va / 4096 % 512) ∧ S.node 0 (va / 4096 / 512) = some q) ∧
      Kept (Held lay G d) r r' := by
  have hkept : Post (fun _ => True) (walk d va true) r fun _ r' => Kept (Held lay G d) r r' := by
    obtain ⟨hpx2, htop⟩ := Vm.px_two hva
    have hroot : T.node (1 + 1) (va / 4096 / 512 / 512 / 512) = some d := by
      rw [htop, ← h.root d T hT]
      exact (h.rep d T hT).top
    have hstep := h.run (walkStep_refines (Nat.mod_lt _ (by decide))) (Vm.walkStep_alloc h hT (l := 1) (by decide) hroot)
    unfold walk
    rw [if_neg (Nat.not_le.mpr hva), hpx2]
    refine Post.bind ((hstep.mono_panic fun _ hf => hf.elim).and (walkStep_kept (Nat.mod_lt _ (by decide)))) ?_
    rintro o t ⟨⟨m, hR, S, hS, _, hleaf, rfl, _⟩, hfirst⟩
    have hfirst' : Kept (Held lay G d) r t := hfirst.mono fun x hx => by
      obtain ⟨hfree, hpage⟩ := hx.apart h
      exact ⟨fun hxd => hpage T hT ⟨2, 0, hxd ▸ htop ▸ hroot⟩, hfree⟩
    cases ht1 : S.node 1 (va / 4096 / 512 / 512) with
    | none => exact hfirst'
    | some t1 =>
      refine Post.bind (walkStep_kept (px_lt 1 va)) fun o u hsecond => ?_
      have hsecond' : Kept (Held lay G d) t u := hsecond.mono fun x hx => by
        obtain ⟨hfree, hpage⟩ := (hx.setTable hT fun n e he => by rw [hleaf]; exact he).apart (hR.sound hS)
        exact ⟨fun hx1 => hpage S Vm.setTable_self ⟨1, _, hx1 ▸ ht1⟩, hfree⟩
      cases o with
      | none => exact hfirst'.trans hsecond'
      | some t0 => exact hfirst'.trans hsecond'
  refine ((h.run walk_refines (Vm.walk_alloc h hT hva)).and hkept).mono ?_
  rintro o r' ⟨⟨m, hR, S, hS, hroot, hleaf, ho⟩, hk⟩
  exact ⟨S, hR.sound hS, hroot, hleaf, ho, hk⟩

theorem mappages_kept {perm : Nat} (h : Sound lay G r) (hT : G.table d = some T) (hn : n < trampVpn + 1) :
    Post (fun _ => True) (mappages d (n * 4096) PGSIZE pa perm) r fun _ r' => Kept (Held lay G d) r r' := by
  have hva := Vm.page_lt hn
  rw [mappages_page (by omega) (Nat.lt_trans hva (by decide))]
  refine Post.bind ((walk_spec h hT hva).mono_panic fun _ hf => hf.elim) ?_
  rintro o t ⟨S, hS, _, hleaf, ho, hkept⟩
  rcases ho with rfl | ⟨q, rfl, hq⟩
  · exact hkept
  · dsimp only
    rw [readPte, post_read_bind]
    split
    next => trivial
    next =>
      refine hkept.trans ((setPte_kept (Nat.mod_lt _ (by decide))).mono fun x hx => ?_)
      obtain ⟨_, hpage⟩ := (hx.setTable hT fun n e he => by rw [hleaf]; exact he).apart hS
      exact fun hxq => hpage S Vm.setTable_self ⟨0, _, hxq ▸ hq⟩

theorem mappages_user (perm : Nat) (h : Sound lay (G.use q) r) (hu : ¬ G.used q) (hT : G.table d = some T)
    (hn : n < tfVpn) (hfree : T.leaf n = none) (hperm : perm < 1024) (hleafy : (decode perm).Leafy) :
    Returns (mappages d (n * 4096) PGSIZE q perm) r fun ok r' => Kept (Held lay (G.use q) d) r r' ∧
      (ok = false ∧ (∃ S : Table, Sound lay ((G.setTable d (some S)).use q) r' ∧ S.leaf = T.leaf) ∨
      ok = true ∧ ∃ S : Table, Sound lay (G.setTable d (some (S.setLeaf n (some ((decode perm).mapped q))))) r' ∧
        S.leaf = T.leaf) := by
  have hq : q < 4503599627370496 := by
    have hm := h.part.within .used q (.inl rfl)
    have hlt : q < phystopPage := hm.2
    unfold phystopPage at hlt
    omega
  have hlt := Vm.user_lt_tramp hn
  have hspec := h.run (mappages_refines hlt hq hperm) (Vm.mappages_user (decode perm) h hu hT hn hfree hleafy)
  refine (hspec.and (mappages_kept h hT hlt)).mono ?_
  rintro ok r' ⟨⟨m, hR, hm⟩, hkept⟩
  refine ⟨hkept, ?_⟩
  rcases hm with ⟨rfl, S, hS, _, hleaf⟩ | ⟨rfl, S, hS, _, hleaf⟩
  · exact .inl ⟨rfl, S, hR.sound hS, hleaf⟩
  · exact .inr ⟨rfl, S, hR.sound hS, hleaf⟩

theorem mappages_kernel (perm : Nat) (h : Sound lay G r) (hT : G.table d = some T) (hn : n = trampVpn ∨ n = tfVpn)
    (hfree : T.leaf n = none) (hpa : pa < 4503599627370496) (hperm : perm < 1024) (hleafy : (decode perm).Leafy) :
    Returns (mappages d (n * 4096) PGSIZE pa perm) r fun ok r' => Kept (Held lay G d) r r' ∧
      (ok = false ∧ (∃ S : Table, Sound lay (G.setTable d (some S)) r' ∧ S.leaf = T.leaf) ∨
      ok = true ∧ ∃ S : Table, Sound lay (G.setTable d (some (S.setLeaf n (some ((decode perm).mapped pa))))) r' ∧
        S.leaf = T.leaf) := by
  have hlt := Vm.kernel_lt_tramp hn
  have hspec := h.run (mappages_refines hlt hpa hperm) (Vm.mappages_kernel (decode perm) h hT hn hfree hleafy)
  refine (hspec.and (mappages_kept h hT hlt)).mono ?_
  rintro ok r' ⟨⟨m, hR, hm⟩, hkept⟩
  refine ⟨hkept, ?_⟩
  rcases hm with ⟨rfl, S, hS, _, hleaf⟩ | ⟨rfl, S, hS, _, hleaf⟩
  · exact .inl ⟨rfl, S, hR.sound hS, hleaf⟩
  · exact .inr ⟨rfl, S, hR.sound hS, hleaf⟩

theorem walk_leaf (h : Sound lay G r) (hT : G.table d = some T) (hn : T.leaf n = some e) (hlt : n < trampVpn + 1) :
    ∃ p, T.node 0 (n / 512) = some p ∧ decode (r.pte p (n % 512)) = e ∧ e.v = true ∧ e.Leafy ∧
      walk d (n * 4096) false r = .ok (some (p, n % 512), r) := by
  obtain ⟨p, hp, hpe, hv, hleafy, hwalk⟩ := Vm.walk_leaf h hT hn hlt
  obtain ⟨r', hrun, _⟩ := walk_refines r (view r) h.reads _ _ hwalk
  have hsame : r' = r := (Prod.mk.inj (Except.ok.inj (hrun.symm.trans (walk_descend (Vm.page_lt hlt))))).2
  subst hsame
  rw [view_pte (Nat.mod_lt _ (by decide))] at hpe
  exact ⟨p, hp, hpe, hv, hleafy, hrun⟩

theorem unmapPage_spec (doFree : Bool) (h : Sound lay G r) (hT : G.table d = some T) (hlt : n < trampVpn + 1)
    (hn : T.leaf n = some e) (hown : doFree = true ↔ ¬ (n = trampVpn ∨ n = tfVpn)) :
    Returns (unmapPage lay d (n * 4096) doFree) r fun _ r' =>
      Sound lay (G.setTable d (some (T.setLeaf n none))) r' ∧ Kept (Other lay G d) r r' := by
  obtain ⟨p, hp, hpe, hv, _, hwalk⟩ := walk_leaf h hT hn hlt
  have hkept : Post (fun _ => True) (unmapPage lay d (n * 4096) doFree) r fun _ r' => Kept (Other lay G d) r r' := by
    have hentry : ∀ {t : Ram}, Kept (Other lay G d) t (t.setPte p (n % 512) 0) := by
      intro t
      refine (setPte_kept (Nat.mod_lt _ (by decide))).mono fun x hx hxp => ?_
      exact (hx.apart h).2 T (.node 0 (n / 512)) hT (hxp ▸ hp)
    have hv' : has (r.pte p (n % 512)) PTE_V = true := by
      rw [← hv, ← hpe]
      rfl
    rw [unmapPage, post_run_bind hwalk]
    dsimp only
    rw [readPte, post_read_bind, hv', if_neg (by simp)]
    split
    next => trivial
    next =>
      cases doFree with
      | false => exact hentry
      | true =>
        have hat : T.at (.leaf n) = some e.ppn := by simp [Table.at, hown.mp rfl, hn]
        have hppn : pteToPage (r.pte p (n % 512)) = e.ppn := by
          rw [← hpe]
          rfl
        rw [Prog.when, if_pos rfl, hppn, kfree]
        split
        next => trivial
        next =>
          rw [post_change_bind]
          refine (fillPage_kept.mono fun x hx hxe => ?_).trans hentry
          exact (hx.apart h).2 T (.leaf n) hT (hxe ▸ hat)
  exact h.run_kept unmapPage_refines (Vm.unmapPage_spec doFree h hT hlt hn hown) hkept

end TweakedXv6.Phys
