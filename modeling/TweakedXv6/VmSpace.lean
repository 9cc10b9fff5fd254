import TweakedXv6.VmFree

namespace TweakedXv6.Vm

open Prog

def pages (sz : Nat) : Nat := (sz + 4095) / 4096

/-- Exactly the first `k` pages of user memory are mapped, for the user except at guard pages. -/
structure UserMap (T : Table) (k : Nat) (guard : Nat → Prop) : Prop where
  mapped : ∀ i < k, ∃ e, T.leaf i = some e ∧ (e.u = true ∨ guard i)
  rest : ∀ i, k ≤ i → i < tfVpn → T.leaf i = none

/-- Above user memory there are the trampoline and the trapframe, closed to the user. -/
structure KernelMap (lay : Layout) (tf : Nat) (T : Table) : Prop where
  tramp : T.leaf trampVpn = some ⟨true, true, false, true, false, 0, lay.tramp⟩
  trapframe : T.leaf tfVpn = some ⟨true, true, true, false, false, 0, tf⟩
  above : ∀ i, trampVpn < i → T.leaf i = none

/-- One page table in a model of memory: the functions that its code is made of, and what they do to it.
`Ok o s` says that memory is in order with the table `o` at `d`, and `Kept s t` that the pages of others
are as they were. -/
structure Space (lay : Layout) (d : Nat) (σ : Type) where
  Ok : Option Table → σ → Prop
  Kept : σ → σ → Prop
  kfree : Nat → Prog σ Unit
  entry : (Nat → Prog σ Unit) → Nat → Nat → Prog σ Unit
  clear : Nat → Nat → Prog σ Unit
  unmapPage : Nat → Bool → Prog σ Unit
  refl : ∀ s, Kept s s
  trans : ∀ {s t u}, Kept s t → Kept t u → Kept s u
  top : ∀ {T s}, Ok (some T) s → T.node 2 0 = some d
  pages_le : ∀ {T s k guard}, Ok (some T) s → UserMap T k guard → k ≤ 32768
  entry_leaf : ∀ {T s f b q i}, Ok (some T) s → T.node 0 b = some q → i < 512 → T.leaf (512 * b + i) = none →
    entry f q i s = .ok ((), s)
  entry_none : ∀ {T s f l b q i}, Ok (some T) s → T.node (l + 1) b = some q → i < 512 →
    T.node l (512 * b + i) = none → entry f q i s = .ok ((), s)
  entry_some : ∀ {T s f l b q i p}, Ok (some T) s → T.node (l + 1) b = some q → i < 512 →
    T.node l (512 * b + i) = some p → entry f q i s = (f p >>= fun _ => clear q i) s
  unlink : ∀ {T s l b q p}, Ok (some T) s → l < 2 → T.node (l + 1) (b / 512) = some q → T.node l b = some p →
    T.Childless l b → Returns (kfree p >>= fun _ => clear q (b % 512)) s fun _ t =>
      Ok (some (T.setNode l b none)) t ∧ Kept s t
  destroy : ∀ {T s}, Ok (some T) s → (∀ n, T.leaf n = none) → T.Childless 2 0 →
    Returns (kfree d) s fun _ t => Ok none t ∧ Kept s t
  unmap : ∀ {T s n e} (doFree : Bool), Ok (some T) s → n < trampVpn + 1 → T.leaf n = some e →
    (doFree = true ↔ ¬ (n = trampVpn ∨ n = tfVpn)) →
    Returns (unmapPage (n * 4096) doFree) s fun _ t => Ok (some (T.setLeaf n none)) t ∧ Kept s t

variable {lay : Layout} {σ : Type} {s : σ} {T S R : Table} {d i j k n sz oldsz newsz tf : Nat} {guard : Nat → Prop}

theorem pages_mul : pages (k * 4096) = k := by
  unfold pages
  omega

theorem pgroundup_eq (h : sz ≤ 134217728) : pgroundup sz = pages sz * 4096 := by
  unfold pgroundup pages
  omega

theorem UserMap.ne_none (h : UserMap T k guard) (hi : i < k) : T.leaf i ≠ none := by
  obtain ⟨e, he, _⟩ := h.mapped i hi
  simp [he]

/-- The table without its trampoline and trapframe. -/
def Table.user (T : Table) : Table := (T.setLeaf trampVpn none).setLeaf tfVpn none

theorem UserMap.user (h : UserMap T k guard) (hk : k ≤ 32768) : UserMap T.user k guard := by
  have huser : ∀ i, i < tfVpn → T.user.leaf i = T.leaf i := by
    intro i hi
    rw [Table.user, setLeaf_other (by omega), setLeaf_other (by unfold tfVpn at hi; unfold trampVpn; omega)]
  refine ⟨fun i hi => ?_, fun i hi hlt => ?_⟩
  · rw [huser i (by unfold tfVpn; omega)]
    exact h.mapped i hi
  · rw [huser i hlt]
    exact h.rest i hi hlt

theorem KernelMap.user (h : KernelMap lay tf T) (hi : tfVpn ≤ i) : T.user.leaf i = none := by
  by_cases hi1 : i = tfVpn
  · rw [hi1, Table.user, setLeaf_self]
  · by_cases hi2 : i = trampVpn
    · rw [hi2, Table.user, setLeaf_other (by decide), setLeaf_self]
    · rw [Table.user, setLeaf_other hi1, setLeaf_other hi2]
      exact h.above i (by unfold tfVpn at hi hi1; unfold trampVpn at hi2 ⊢; omega)

theorem UserMap.clear_all (h : UserMap T k guard) (hK : ∀ i, tfVpn ≤ i → T.leaf i = none) :
    (T.clear 0 k).leaf n = none := by
  simp only [Table.clear]
  split
  next => rfl
  next hn =>
    by_cases hlt : n < tfVpn
    · exact h.rest n (by omega) hlt
    · exact hK n (by omega)

namespace Space

def uvmunmap (L : Space lay d σ) (va npages : Nat) (doFree : Bool) : Prog σ Unit :=
  if va % PGSIZE ≠ 0 then halt "uvmunmap: not aligned"
  else loop (unmapRounds va npages) fun i => L.unmapPage (va + i * PGSIZE) doFree

def uvmdealloc (L : Space lay d σ) (oldsz newsz : Nat) : Prog σ Nat :=
  if oldsz ≤ newsz then ret oldsz
  else if pgroundup newsz < pgroundup oldsz then do
    L.uvmunmap (pgroundup newsz) ((pgroundup oldsz - pgroundup newsz) / PGSIZE) true
    ret newsz
  else ret newsz

def freewalk (L : Space lay d σ) : Nat → Nat → Prog σ Unit
  | 0, _ => halt "freewalk: level"
  | level + 1, pagetable => do
    loop 512 (L.entry (L.freewalk level) pagetable)
    L.kfree pagetable

def uvmfree (L : Space lay d σ) (sz : Nat) : Prog σ Unit := do
  when (sz > 0) (L.uvmunmap 0 (pgroundup sz / PGSIZE) true)
  L.freewalk 3 d

/-- The two calls of `mappages` in `proc_pagetable`, and what follows. -/
def procPagetable (L : Space lay d σ) (mapTramp mapTrapframe : Prog σ Bool) : Prog σ (Option Nat) := do
  if ← mapTramp then
    if ← mapTrapframe then ret (some d)
    else do
      L.uvmunmap TRAMPOLINE 1 false
      L.uvmfree 0
      ret none
  else do
    L.uvmfree 0
    ret none

def procFreepagetable (L : Space lay d σ) (sz : Nat) : Prog σ Unit := do
  L.uvmunmap TRAMPOLINE 1 false
  L.uvmunmap TRAPFRAME 1 false
  L.uvmfree sz

/-- The call returns whether it could map page `n` by `e`. -/
def Maps (L : Space lay d σ) (m : Prog σ Bool) (n : Nat) (e : Pte) : Prop :=
  ∀ T s, L.Ok (some T) s → T.leaf n = none → Returns m s fun ok t =>
    L.Kept s t ∧ ∃ S : Table, S.leaf = T.leaf ∧ L.Ok (some (if ok then S.setLeaf n (some e) else S)) t

variable {L : Space lay d σ}

section Unmap

variable (h : L.Ok (some T) s)

include h

theorem uvmunmap_user (hlt : n + k ≤ tfVpn) (hmap : ∀ i, n ≤ i → i < n + k → T.leaf i ≠ none) :
    Returns (L.uvmunmap (n * 4096) k true) s fun _ t => L.Ok (some (T.clear n k)) t ∧ L.Kept s t := by
  unfold uvmunmap
  rw [if_neg (by unfold PGSIZE; omega), unmapRounds_eq (by unfold PGSIZE; unfold tfVpn at hlt; omega)]
  refine Post.loop (I := fun i t => L.Ok (some (T.clear n i)) t ∧ L.Kept s t) ?_ ?_
  · rw [clear_zero]
    exact ⟨h, L.refl s⟩
  · rintro i t hi ⟨ht, hkept⟩
    obtain ⟨huser, e, hleaf⟩ := clear_next hlt hmap hi
    rw [show n * 4096 + i * PGSIZE = (n + i) * 4096 by unfold PGSIZE; omega]
    refine (L.unmap true ht (user_lt_tramp huser) hleaf (iff_of_true rfl (user_not_kernel huser))).mono ?_
    rintro _ u ⟨hu, hk⟩
    rw [clear_succ] at hu
    exact ⟨hu, L.trans hkept hk⟩

theorem uvmunmap_kernel (hn : n = trampVpn ∨ n = tfVpn) (hmap : T.leaf n ≠ none) :
    Returns (L.uvmunmap (n * 4096) 1 false) s fun _ t => L.Ok (some (T.setLeaf n none)) t ∧ L.Kept s t := by
  obtain ⟨e, he⟩ := Option.ne_none_iff_exists'.mp hmap
  have hrange := kernel_lt_tramp hn
  unfold uvmunmap
  rw [if_neg (by unfold PGSIZE; omega), unmapRounds_eq (by unfold PGSIZE; unfold trampVpn at hrange; omega), Returns,
    post_loop_one, Nat.zero_mul, Nat.add_zero]
  exact L.unmap false h hrange he (by simp [hn])

theorem uvmunmap_last (hU : UserMap T (k + j) guard) :
    Returns (L.uvmunmap (k * 4096) j true) s fun _ t => L.Ok (some (T.clear k j)) t ∧ L.Kept s t := by
  have hle := L.pages_le h hU
  refine uvmunmap_user h ?_ fun i _ hi => hU.ne_none hi
  unfold tfVpn
  omega

theorem size_le (hU : UserMap T (pages sz) guard) : sz ≤ 134217728 := by
  have hle := L.pages_le h hU
  unfold pages at hle
  omega

theorem uvmdealloc_spec (hU : UserMap T (pages oldsz) guard) :
    Returns (L.uvmdealloc oldsz newsz) s fun v t => v = min oldsz newsz ∧
      L.Ok (some (T.clear (pages v) (pages oldsz - pages v))) t ∧ L.Kept s t := by
  have hold := size_le h hU
  have hsame : L.Ok (some (T.clear (pages oldsz) 0)) s := by rwa [clear_zero]
  unfold uvmdealloc
  split
  next hlt =>
    rw [Returns, post_ret, Nat.min_eq_left hlt, Nat.sub_self]
    exact ⟨rfl, hsame, L.refl s⟩
  next hlt =>
    rw [Nat.min_eq_right (by omega), pgroundup_eq hold, pgroundup_eq (by omega)]
    split
    next hpages =>
      have hj : (pages oldsz * 4096 - pages newsz * 4096) / PGSIZE = pages oldsz - pages newsz := by
        unfold PGSIZE
        omega
      have hU' : UserMap T (pages newsz + (pages oldsz - pages newsz)) guard := by
        rwa [Nat.add_sub_cancel' (by omega)]
      rw [hj]
      exact (uvmunmap_last h hU').bind fun _ t ht => ⟨rfl, ht⟩
    next hpages =>
      have heq : pages newsz = pages oldsz := by
        have : pages newsz ≤ pages oldsz := by
          unfold pages
          omega
        omega
      rw [Returns, post_ret, heq, Nat.sub_self]
      exact ⟨rfl, hsame, L.refl s⟩

theorem uvmdealloc_undo (hU : UserMap T (k + j) guard) :
    Returns (L.uvmdealloc ((k + j) * 4096) (k * 4096)) s fun _ t => L.Ok (some (T.clear k j)) t ∧ L.Kept s t := by
  refine (uvmdealloc_spec h (by rwa [pages_mul])).mono ?_
  rintro v t ⟨rfl, ht⟩
  rwa [Nat.min_eq_right (by omega), pages_mul, pages_mul, Nat.add_sub_cancel_left] at ht

end Unmap

theorem freewalk_loop (l : Nat) : ∀ {s : σ} {T : Table} {b q : Nat}, l < 3 → L.Ok (some T) s →
    (∀ n, T.leaf n = none) → T.node l b = some q →
    Returns (loop 512 (L.entry (L.freewalk l) q)) s fun _ t => L.Kept s t ∧ ∃ S, L.Ok (some S) t ∧
      S.leaf = T.leaf ∧ S.Childless l b ∧ ∀ l' a, l ≤ l' → S.node l' a = T.node l' a := by
  induction l with
  | zero =>
    intro s T b q _ h hleaf hq
    refine Post.mono (Post.loop (I := fun _ t => t = s) rfl ?_) ?_
    · rintro i t hi rfl
      rw [Post, L.entry_leaf h hq hi (hleaf _)]
    · rintro _ t rfl
      exact ⟨L.refl t, T, h, rfl, fun k _ => hleaf _, fun _ _ _ => rfl⟩
  | succ l ih =>
    intro s T b q hl h hleaf hq
    -- before round `i` the first `i` children are gone and the levels above are untouched
    refine Post.mono (Post.loop (I := fun i t => L.Kept s t ∧ ∃ S, L.Ok (some S) t ∧ S.leaf = T.leaf ∧
      (∀ j < i, S.node l (512 * b + j) = none) ∧ ∀ l' a, l + 1 ≤ l' → S.node l' a = T.node l' a) ?_ ?_) ?_
    · exact ⟨L.refl s, T, h, rfl, fun j hj => absurd hj (by omega), fun _ _ _ => rfl⟩
    · rintro i t hi ⟨hkt, S, hS, hSleaf, hnone, hup⟩
      have hSq : S.node (l + 1) b = some q := by rw [hup _ _ (Nat.le_refl _), hq]
      have hlt : ∀ j, j < i + 1 → j ≠ i → j < i := by omega
      cases hp : S.node l (512 * b + i) with
      | none =>
        rw [Post, L.entry_none hS hSq hi hp]
        refine ⟨hkt, S, hS, hSleaf, fun j hj => ?_, hup⟩
        by_cases hji : j = i
        · exact hji ▸ hp
        · exact hnone j (hlt j hj hji)
      | some p =>
        rw [Post, L.entry_some hS hSq hi hp]
        change Post _ ((loop 512 (L.entry (L.freewalk l) p) >>= fun _ => L.kfree p) >>= fun _ => L.clear q i) t _
        rw [post_bind, post_bind]
        refine (ih (by omega) hS (by simpa [hSleaf] using hleaf) hp).mono ?_
        rintro _ u ⟨hku, S', hS', hleaf', hchild, hup'⟩
        have hq' : S'.node (l + 1) ((512 * b + i) / 512) = some q := by
          rw [show (512 * b + i) / 512 = b by omega, hup' _ _ (by omega), hSq]
        have hfree := L.unlink hS' (by omega) hq' (by rw [hup' _ _ (Nat.le_refl _), hp]) hchild
        rw [show (512 * b + i) % 512 = i by omega, Returns, post_bind] at hfree
        refine hfree.mono fun _ v hv => hv.mono ?_
        rintro _ w ⟨hw, hkw⟩
        refine ⟨L.trans hkt (L.trans hku hkw), _, hw, by simpa [hleaf'] using hSleaf, ?_, ?_⟩
        · intro j hj
          by_cases hji : j = i
          · rw [hji, setNode_self]
          · rw [setNode_other (by omega), hup' _ _ (Nat.le_refl _)]
            exact hnone j (hlt j hj hji)
        · intro l' a hl'
          rw [setNode_other (by omega), hup' _ _ (by omega)]
          exact hup l' a hl'
    · rintro _ t ⟨hkt, S, hS, hSleaf, hnone, hup⟩
      exact ⟨hkt, S, hS, hSleaf, hnone, hup⟩

theorem freewalk_spec (h : L.Ok (some T) s) (hleaf : ∀ n, T.leaf n = none) :
    Returns (L.freewalk 3 d) s fun _ t => L.Ok none t ∧ L.Kept s t := by
  rw [freewalk]
  refine Post.bind (freewalk_loop 2 (by decide) h hleaf (L.top h)) ?_
  rintro _ t ⟨hkt, S, hS, hSleaf, hchild, _⟩
  refine (L.destroy hS (by simpa [hSleaf] using hleaf) hchild).mono ?_
  rintro _ u ⟨hu, hku⟩
  exact ⟨hu, L.trans hkt hku⟩

theorem uvmfree_spec (h : L.Ok (some T) s) (hU : UserMap T (pages sz) guard) (hK : ∀ i, tfVpn ≤ i → T.leaf i = none) :
    Returns (L.uvmfree sz) s fun _ t => L.Ok none t ∧ L.Kept s t := by
  have hclear : Returns (when (sz > 0) (L.uvmunmap 0 (pgroundup sz / PGSIZE) true)) s fun _ t =>
      L.Ok (some (T.clear 0 (pages sz))) t ∧ L.Kept s t := by
    unfold Prog.when
    split
    next =>
      have hdiv : pgroundup sz / PGSIZE = pages sz := by
        rw [pgroundup_eq (size_le h hU)]
        unfold PGSIZE
        omega
      have hun := uvmunmap_last (k := 0) h (by rwa [Nat.zero_add])
      rw [Nat.zero_mul] at hun
      rwa [hdiv]
    next hzero =>
      have hpages : pages sz = 0 := by
        unfold pages
        omega
      rw [Returns, post_ret, hpages, clear_zero]
      exact ⟨h, L.refl s⟩
  refine Post.bind hclear ?_
  rintro _ t ⟨ht, hkt⟩
  refine (freewalk_spec ht fun n => hU.clear_all hK).mono ?_
  rintro _ u ⟨hu, hku⟩
  exact ⟨hu, L.trans hkt hku⟩

theorem uvmfree_bare (h : L.Ok (some T) s) (hleaf : ∀ i, T.leaf i = none) :
    Returns (L.uvmfree 0) s fun _ t => L.Ok none t ∧ L.Kept s t := by
  have hU : UserMap T (pages 0) fun _ => False :=
    ⟨fun i hi => absurd hi (by simp [pages]), fun i _ _ => hleaf i⟩
  exact uvmfree_spec h hU fun i _ => hleaf i

theorem procPagetable_spec {mapTramp mapTrapframe : Prog σ Bool} (htramp : L.Maps mapTramp trampVpn (Pte.rx.mapped lay.tramp))
    (htf : L.Maps mapTrapframe tfVpn (Pte.rw.mapped tf)) (h : L.Ok (some (.empty d)) s) :
    Returns (L.procPagetable mapTramp mapTrapframe) s fun r t => L.Kept s t ∧ (r = none ∧ L.Ok none t ∨
      r = some d ∧ ∃ S, L.Ok (some S) t ∧ KernelMap lay tf S ∧ UserMap S 0 fun _ => False) := by
  rw [Returns, procPagetable]
  refine (htramp _ s h rfl).bind ?_
  rintro ok t ⟨hkt, S, hleaf, ht⟩
  cases ok with
  | false =>
    refine (uvmfree_bare ht fun i => by rw [if_neg (by simp), hleaf]; rfl).bind ?_
    rintro _ u ⟨hu, hku⟩
    exact ⟨L.trans hkt hku, .inl ⟨rfl, hu⟩⟩
  | true =>
    rw [if_pos rfl] at ht ⊢
    have hnone : ∀ i, i ≠ trampVpn → (S.setLeaf trampVpn (some (Pte.rx.mapped lay.tramp))).leaf i = none := by
      intro i hi
      rw [setLeaf_other hi, hleaf]
      rfl
    refine (htf _ t ht (hnone _ (by decide))).bind ?_
    rintro ok u ⟨hku, R, hR, hu⟩
    have hsu := L.trans hkt hku
    cases ok with
    | false =>
      rw [if_neg (by simp)] at hu
      refine (uvmunmap_kernel hu (.inl rfl) (by simp [hR])).bind ?_
      rintro _ v ⟨hv, hkv⟩
      have hbare : ∀ i, (R.setLeaf trampVpn none).leaf i = none := by
        intro i
        by_cases hi : i = trampVpn
        · rw [hi, setLeaf_self]
        · rw [setLeaf_other hi, hR, hnone i hi]
      refine (uvmfree_bare hv hbare).bind ?_
      rintro _ w ⟨hw, hkw⟩
      exact ⟨L.trans hsu (L.trans hkv hkw), .inl ⟨rfl, hw⟩⟩
    | true =>
      rw [if_pos rfl] at hu
      refine ⟨hsu, .inr ⟨rfl, _, hu, ⟨?_, setLeaf_self, fun i hi => ?_⟩, ⟨fun i hi => absurd hi (by omega), ?_⟩⟩⟩
      · rw [setLeaf_other (by decide), hR, setLeaf_self]
        rfl
      · rw [setLeaf_other (by unfold trampVpn at hi; unfold tfVpn; omega), hR, hnone i (by omega)]
      · intro i _ hi
        rw [setLeaf_other (by omega), hR, hnone i (by unfold tfVpn at hi; unfold trampVpn; omega)]

theorem procFreepagetable_spec (h : L.Ok (some T) s) (hK : KernelMap lay tf T) (hU : UserMap T (pages sz) guard) :
    Returns (L.procFreepagetable sz) s fun _ t => L.Ok none t ∧ L.Kept s t := by
  rw [Returns, procFreepagetable]
  refine (uvmunmap_kernel h (.inl rfl) (by simp [hK.tramp])).bind ?_
  rintro _ t ⟨ht, hkt⟩
  have hmap : (T.setLeaf trampVpn none).leaf tfVpn ≠ none := by
    rw [setLeaf_other (by decide), hK.trapframe]
    simp
  refine (uvmunmap_kernel ht (.inr rfl) hmap).bind ?_
  rintro _ u ⟨hu, hku⟩
  refine (uvmfree_spec hu (hU.user (L.pages_le h hU)) fun i hi => hK.user hi).mono ?_
  rintro _ v ⟨hv, hkv⟩
  exact ⟨hv, L.trans hkt (L.trans hku hkv)⟩

end Space

end TweakedXv6.Vm
