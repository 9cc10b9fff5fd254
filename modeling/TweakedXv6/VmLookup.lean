import Mathlib.Tactic.Common
import TweakedXv6.Radix
import TweakedXv6.VmOwner

namespace TweakedXv6.Vm

open Prog Radix

def format : Format Pte := ⟨Pte.v, Pte.ppn⟩

def NPAGES : Nat := 67108864

def path (n : Nat) : List Nat := [n / 512 / 512 % 512, n / 512 % 512]

def lookup (m : Mem) (root : Nat) : Nat → Option Pte := fun n =>
  if n < NPAGES then find format m.pte root (path n) (n % 512) else none

abbrev IsTable (m : Mem) (root q : Nat) : Prop := Reaches format m.pte 512 2 root q

structure WellFormed (m : Mem) (root : Nat) : Prop where
  tree : Tree format m.pte 512 2 root
  free : ∀ q ∈ m.free, ¬ IsTable m root q
  nodup : m.free.Nodup

def bindRange (f : Nat → Option Pte) (first k pa : Nat) (perm : Pte) : Nat → Option Pte := fun n =>
  if first ≤ n ∧ n < first + k then some { perm with v := true, ppn := (pa + (n - first)) % 4503599627370496 } else f n

/-- The last page of a range of addresses, which is before its first page if the range wraps around. -/
def lastPage (va size : Nat) : Nat := (va + size - 1) % 18446744073709551616 / 4096

def InRange (first last n : Nat) : Prop := first ≤ n ∧ (n ≤ last ∨ last < first)

def unbindRange (f : Nat → Option Pte) (first k : Nat) : Nat → Option Pte := fun n =>
  if first ≤ n ∧ n < first + k then none else f n

variable {m t : Mem} {root va q n i k first pa fuel L x : Nat} {e perm : Pte} {f : Nat → Option Pte}
  {p : List Nat} {E : String → Prop} {c : Nat → Pte} {lay : Layout} {doFree : Bool} {T : Table}

theorem isPath_path : IsPath 512 2 (path n) := by
  refine ⟨Nat.le_refl 2, fun i hi => ?_⟩
  simp only [path, List.mem_cons, List.not_mem_nil, or_false] at hi
  omega

theorem path_inj (hn : n < NPAGES) (hi : i < NPAGES) (h : path n = path i) (hmod : n % 512 = i % 512) : n = i := by
  simp only [path, List.cons.injEq, and_true] at h
  unfold NPAGES at *
  omega

theorem px_path (h : va < MAXVA) : path (va / 4096) = [px 2 va, px 1 va] ∧ px 0 va = va / 4096 % 512 ∧
    va / 4096 < NPAGES := by
  unfold MAXVA at h
  refine ⟨?_, rfl, ?_⟩
  · simp only [path, px, List.cons.injEq, and_true]
    omega
  · unfold NPAGES
    omega

theorem setPte_setEntry : (m.setPte q i e).pte = setEntry m.pte q i e := by
  funext q' j
  by_cases hq : q' = q
  · subst hq
    by_cases hj : j = i
    · simp [setEntry, hj]
    · simp [setEntry, hj, setPte_index hj]
  · simp [setEntry, hq, setPte_other hq]

theorem lookup_congr (h : ∀ n, n < NPAGES → find format t.pte root (path n) (n % 512) =
    find format m.pte root (path n) (n % 512)) : lookup t root = lookup m root := by
  funext n
  unfold lookup
  split
  next hn => exact h n hn
  next => rfl

theorem WellFormed.lookup_write (h : WellFormed m root) (hn : n < NPAGES)
    (hq : descend format m.pte root (path n) = some q) :
    lookup (m.setPte q (n % 512) e) root = Function.update (lookup m root) n (if e.v then some e else none) := by
  funext j
  rw [Function.update_apply]
  unfold lookup
  rw [setPte_setEntry]
  by_cases hj : j < NPAGES
  · rw [if_pos hj, if_pos hj, h.tree.find_write isPath_path rfl hq isPath_path]
    by_cases hjn : j = n
    · subst hjn
      rw [if_pos ⟨rfl, rfl⟩, if_pos rfl]
      rfl
    · rw [if_neg fun hp => hjn (path_inj hj hn hp.1 hp.2), if_neg hjn]
  · rw [if_neg hj, if_neg hj, if_neg fun he : j = n => hj (he ▸ hn)]

theorem WellFormed.isTable_write (h : WellFormed m root) (hq : descend format m.pte root (path n) = some q) :
    IsTable (m.setPte q (n % 512) e) root x ↔ IsTable m root x := by
  unfold IsTable Reaches
  rw [setPte_setEntry]
  refine exists_congr fun p => and_congr_right fun hp => ?_
  rw [h.tree.descend_write isPath_path hq hp (not_past rfl hp)]

theorem WellFormed.write (h : WellFormed m root) (hq : descend format m.pte root (path n) = some q) :
    WellFormed (m.setPte q (n % 512) e) root where
  tree := by
    rw [setPte_setEntry]
    exact h.tree.write isPath_path rfl hq
  free x hx := by
    rw [h.isTable_write hq]
    exact h.free x hx
  nodup := h.nodup

theorem lookup_entry (hn : n < NPAGES) (hq : descend format m.pte root (path n) = some q) :
    lookup m root n = if (m.pte q (n % 512)).v then some (m.pte q (n % 512)) else none := by
  unfold lookup find
  rw [if_pos hn, hq]
  rfl

theorem lookup_none (h : descend format m.pte root (path n) = none) : lookup m root n = none := by
  unfold lookup find
  rw [h]
  split <;> rfl

theorem descend_snoc (hq : descend format m.pte root p = some q) :
    descend format m.pte root (p ++ [i]) = if (m.pte q i).v then some (m.pte q i).ppn else none := by
  rw [descend_append, hq, Option.bind_some, descend, next]
  change (if (m.pte q i).v = true then some (m.pte q i).ppn else none).bind _ = _
  split <;> rfl

theorem walkStep_descend (hq : descend format m.pte root p = some q) :
    walkStep q i false m = .ok (descend format m.pte root (p ++ [i]), m) := by
  rw [descend_snoc hq]
  unfold walkStep readPte
  rw [run_bind run_read]
  cases (m.pte q i).v <;> simp

theorem walk_descend (hva : va < MAXVA) : walk root va false m =
    .ok ((descend format m.pte root (path (va / 4096))).map fun q => (q, va / 4096 % 512), m) := by
  obtain ⟨hpath, hidx, _⟩ := px_path hva
  have h1 := walkStep_descend (m := m) (p := []) (i := px 2 va) (show descend format m.pte root [] = some root from rfl)
  unfold walk
  rw [if_neg (Nat.not_le.mpr hva), run_bind h1, hpath, List.nil_append]
  cases hq : descend format m.pte root [px 2 va] with
  | none =>
    have hnone : descend format m.pte root [px 2 va, px 1 va] = none := by
      rw [show [px 2 va, px 1 va] = [px 2 va] ++ [px 1 va] from rfl, descend_append, hq]
      rfl
    rw [hnone]
    rfl
  | some t1 =>
    dsimp only
    rw [run_bind (walkStep_descend hq), hidx, show [px 2 va, px 1 va] = [px 2 va] ++ [px 1 va] from rfl]
    cases descend format m.pte root ([px 2 va] ++ [px 1 va]) <;> rfl

theorem kalloc_wellFormed (h : WellFormed m root) : Returns kalloc m fun r t =>
    (∀ y ∈ t.free, y ∈ m.free) ∧ t.free.Nodup ∧ (r = none ∧ t.pte = m.pte ∨
      ∃ x, r = some x ∧ ¬ IsTable m root x ∧ x ∉ t.free ∧ ∀ y, y ≠ x → t.pte y = m.pte y) := by
  unfold Returns Post kalloc
  dsimp only
  by_cases hfail : m.fails 0 = true
  · rw [if_pos hfail]
    exact ⟨fun _ hy => hy, h.nodup, .inl ⟨rfl, rfl⟩⟩
  · rw [if_neg hfail]
    cases hfree : m.free with
    | nil => exact ⟨fun _ hy => by simp at hy, by simp, .inl ⟨rfl, rfl⟩⟩
    | cons x rest =>
      have hnodup : x ∉ rest ∧ rest.Nodup := by simpa [hfree] using h.nodup
      refine ⟨fun y hy => by simp [show y ∈ rest from hy], hnodup.2, .inr ⟨x, rfl, ?_, hnodup.1, ?_⟩⟩
      · exact h.free x (by simp [hfree])
      · intro y hy
        exact setPage_other hy

theorem WellFormed.link (h : WellFormed m root) (hp : IsPath 512 2 (p ++ [i]))
    (hq : descend format m.pte root p = some q) (hv : (m.pte q i).v = false) (hx : ¬ IsTable m root x)
    (hkeep : ∀ y, y ≠ x → t.pte y = m.pte y) (hzero : ∀ j, (t.pte x j).v = false)
    (hfree : ∀ y ∈ t.free, y ∈ m.free) (hxfree : x ∉ t.free) (hnodup : t.free.Nodup) :
    WellFormed (t.setPte q i (.table x)) root ∧ lookup (t.setPte q i (.table x)) root = lookup m root ∧
      descend format (t.setPte q i (.table x)).pte root (p ++ [i]) = some x := by
  have he : next format (Pte.table x) = some x := rfl
  have hlen : p.length < 2 := by
    have := hp.1
    rw [List.length_append, List.length_singleton] at this
    omega
  refine ⟨⟨?_, ?_, hnodup⟩, lookup_congr fun n _ => ?_, ?_⟩
  · rw [setPte_setEntry]
    exact h.tree.link hp.left hq hv hx he hkeep hzero
  · intro y hy hreach
    rw [IsTable, setPte_setEntry] at hreach
    rcases h.tree.reaches_link hp.left hq hv hx he hkeep hzero hreach with rfl | hold
    · exact hxfree hy
    · exact h.free y (hfree y hy) hold
  · rw [setPte_setEntry]
    exact h.tree.find_link hp.left hq hv hx he hkeep hzero hlen isPath_path rfl
  · rw [setPte_setEntry, h.tree.descend_link hp.left hq hv hx he hkeep hzero hp, if_pos rfl]

theorem walkStep_add (h : WellFormed m root) (hp : IsPath 512 2 (p ++ [i])) (hq : descend format m.pte root p = some q) :
    Returns (walkStep q i true) m fun r t => WellFormed t root ∧ lookup t root = lookup m root ∧
      (r = none ∨ r = descend format t.pte root (p ++ [i])) := by
  rw [Returns, walkStep, readPte, post_read_bind]
  cases hv : (m.pte q i).v with
  | true =>
    rw [if_pos rfl]
    exact ⟨h, rfl, .inr (by rw [descend_snoc hq, hv, if_pos rfl])⟩
  | false =>
    rw [if_neg (by simp), if_pos rfl]
    refine (kalloc_wellFormed h).bind ?_
    rintro r t ⟨hfree, hnodup, ⟨rfl, hpte⟩ | ⟨x, rfl, hx, hxfree, hkeep⟩⟩
    · refine ⟨⟨by rw [hpte]; exact h.tree, fun y hy => ?_, hnodup⟩, ?_, .inl rfl⟩
      · rw [IsTable, hpte]
        exact h.free y (hfree y hy)
      · unfold lookup
        rw [hpte]
    · have hlink := h.link (t := t.setPage x fun _ => .zero) hp hq hv hx
        (fun y hy => (setPage_other hy).trans (hkeep y hy)) (fun j => by rw [setPage_self]; rfl) hfree hxfree hnodup
      exact ⟨hlink.1, hlink.2.1, .inr hlink.2.2.symm⟩

theorem walk_add (h : WellFormed m root) (hva : va < MAXVA) :
    Returns (walk root va true) m fun r t => WellFormed t root ∧ lookup t root = lookup m root ∧
      (r = none ∨ ∃ q, r = some (q, va / 4096 % 512) ∧ descend format t.pte root (path (va / 4096)) = some q) := by
  obtain ⟨hpath, hidx, _⟩ := px_path hva
  have hp2 : IsPath 512 2 ([px 2 va] ++ [px 1 va]) := by
    have := isPath_path (n := va / 4096)
    rwa [hpath] at this
  unfold walk
  rw [if_neg (Nat.not_le.mpr hva), hpath, hidx]
  refine (walkStep_add (p := []) h hp2.left rfl).bind ?_
  rintro r t ⟨ht, hlook, rfl | hr⟩
  · exact ⟨ht, hlook, .inl rfl⟩
  · cases r with
    | none => exact ⟨ht, hlook, .inl rfl⟩
    | some t1 =>
      refine (walkStep_add ht hp2 hr.symm).bind ?_
      rintro r u ⟨hu, hlook', rfl | hr'⟩
      · exact ⟨hu, hlook'.trans hlook, .inl rfl⟩
      · cases r with
        | none => exact ⟨hu, hlook'.trans hlook, .inl rfl⟩
        | some t0 => exact ⟨hu, hlook'.trans hlook, .inr ⟨t0, rfl, hr'.symm⟩⟩

theorem bindRange_zero : bindRange f first 0 pa perm = f := by
  funext n
  rw [bindRange, if_neg (by omega)]

theorem bindRange_succ : Function.update (bindRange f first k pa perm) (first + k)
    (some { perm with v := true, ppn := (pa + k) % 4503599627370496 }) = bindRange f first (k + 1) pa perm := by
  funext n
  rw [Function.update_apply]
  unfold bindRange
  by_cases hn : n = first + k
  · subst hn
    rw [if_pos rfl, if_pos (by omega), Nat.add_sub_cancel_left]
  · rw [if_neg hn]
    by_cases hr : first ≤ n ∧ n < first + k
    · rw [if_pos hr, if_pos (by omega)]
    · rw [if_neg hr, if_neg (by omega)]

theorem mappagesLoop_spec (h : WellFormed m root)
    (hmap : lookup m root = bindRange f first k pa perm) (hle : first + k ≤ L ∨ L < first) (hfuel : fuel + k = NPAGES + 2)
    (hwalk : NPAGES ≤ L ∨ L < first → E "walk")
    (hremap : (∃ n, InRange first L n ∧ f n ≠ none) → E "mappages: remap") :
    Post E (mappagesLoop root (L * 4096) perm fuel ((first + k) * 4096) ((pa + k) % 4503599627370496)) m fun ok t =>
      WellFormed t root ∧
      (ok = true → first ≤ L ∧ lookup t root = bindRange f first (L + 1 - first) pa perm) ∧
      (ok = false → ∃ j, (first + j ≤ L ∨ L < first) ∧ lookup t root = bindRange f first j pa perm) := by
  induction fuel generalizing m k with
  | zero => exact hwalk (by omega)
  | succ fuel ih =>
    rw [mappagesLoop]
    by_cases hva : (first + k) * 4096 < MAXVA
    · have hn : first + k < NPAGES := by
        unfold MAXVA at hva
        unfold NPAGES
        omega
      have hdiv : (first + k) * 4096 / 4096 = first + k := by omega
      refine ((walk_add h hva).mono_panic fun _ => False.elim).bind ?_
      rintro r t ⟨ht, hlook, rfl | ⟨q, rfl, hq⟩⟩
      · exact ⟨ht, by simp, fun _ => ⟨k, hle, hlook.trans hmap⟩⟩
      · rw [hdiv] at hq ⊢
        have hent := lookup_entry hn hq
        have hold : lookup t root (first + k) = f (first + k) := by
          rw [hlook, hmap, bindRange, if_neg (by omega)]
        dsimp only
        rw [readPte, post_read_bind]
        cases hv : (t.pte q ((first + k) % 512)).v with
        | true =>
          rw [if_pos rfl]
          refine hremap ⟨first + k, ⟨by omega, by omega⟩, ?_⟩
          rw [← hold, hent, hv, if_pos rfl]
          simp
        | false =>
          rw [if_neg (by simp), writePte, post_change_bind]
          have hwrite := ht.lookup_write (e := { perm with v := true, ppn := (pa + k) % 4503599627370496 }) hn hq
          rw [hlook, hmap] at hwrite
          have hnew : lookup (t.setPte q ((first + k) % 512) { perm with v := true, ppn := (pa + k) % 4503599627370496 }) root =
              bindRange f first (k + 1) pa perm := by
            rw [hwrite, ← bindRange_succ]
            rfl
          split
          next hlast =>
            refine ⟨ht.write hq, fun _ => ⟨by omega, ?_⟩, by simp⟩
            rw [hnew, show L + 1 - first = k + 1 by omega]
          next hlast =>
            have hstep : (first + k) * 4096 + PGSIZE = (first + (k + 1)) * 4096 := by
              unfold PGSIZE
              omega
            have hnext : nextPpn ((pa + k) % 4503599627370496) = (pa + (k + 1)) % 4503599627370496 := by
              unfold nextPpn
              omega
            rw [hstep, hnext]
            exact ih (ht.write hq) hnew (by omega) (by omega)
    · rw [walk, if_pos (by omega)]
      refine hwalk ?_
      unfold MAXVA at hva
      unfold NPAGES
      omega

theorem mappages_map {size : Nat} (h : WellFormed m root)
    (hpa : pa < 4503599627370496) (hsize : size = 0 → E "mappages: size")
    (hwalk : NPAGES ≤ lastPage va size ∨ lastPage va size < va / 4096 → E "walk")
    (hremap : (∃ n, InRange (va / 4096) (lastPage va size) n ∧ lookup m root n ≠ none) → E "mappages: remap") :
    Post E (mappages root va size pa perm) m fun ok t => WellFormed t root ∧
      (ok = true → va / 4096 ≤ lastPage va size ∧
        lookup t root = bindRange (lookup m root) (va / 4096) (lastPage va size + 1 - va / 4096) pa perm) ∧
      (ok = false → ∃ j, (va / 4096 + j ≤ lastPage va size ∨ lastPage va size < va / 4096) ∧
        lookup t root = bindRange (lookup m root) (va / 4096) j pa perm) := by
  unfold mappages
  split
  next hz => exact hsize hz
  next hz =>
    have hloop := @mappagesLoop_spec m root 0 (va / 4096) pa _ _ perm _ E h bindRange_zero.symm (by omega) rfl hwalk hremap
    rw [show (pa + 0) % 4503599627370496 = pa from Nat.mod_eq_of_lt hpa] at hloop
    exact hloop

theorem setPage_pte (h : ¬ IsTable m root x) : ∀ y, IsTable m root y → (m.setPage x c).pte y = m.pte y := fun _ hy =>
  setPage_other fun he => h (he ▸ hy)

theorem WellFormed.release (h : WellFormed m root) (hx : ¬ IsTable m root x)
    (hfree : x ∉ m.free) : WellFormed { m.setPage x c with free := x :: m.free } root ∧
    lookup { m.setPage x c with free := x :: m.free } root = lookup m root ∧
    ∀ y, IsTable { m.setPage x c with free := x :: m.free } root y ↔ IsTable m root y := by
  have hkeep := setPage_pte (c := c) hx
  have htable : ∀ y, IsTable { m.setPage x c with free := x :: m.free } root y ↔ IsTable m root y := by
    intro y
    refine exists_congr fun p => and_congr_right fun hp => ?_
    change descend format (m.setPage x c).pte root p = some y ↔ _
    rw [descend_frame hp hkeep]
  refine ⟨⟨h.tree.frame hkeep, fun y hy => ?_, List.nodup_cons.mpr ⟨hfree, h.nodup⟩⟩, ?_, htable⟩
  · rw [htable]
    rcases List.mem_cons.mp hy with rfl | hy
    · exact hx
    · exact h.free y hy
  · exact lookup_congr fun n _ => find_frame isPath_path hkeep

structure Unmapped (m : Mem) (root n : Nat) (t : Mem) : Prop where
  wf : WellFormed t root
  map : lookup t root = Function.update (lookup m root) n none
  table : ∀ x, IsTable t root x ↔ IsTable m root x
  free : ∀ x ∈ t.free, x ∈ m.free ∨ ∃ e, lookup m root n = some e ∧ e.ppn = x

theorem unmapPage_map (h : WellFormed m root)
    (hown : doFree = true → ∀ e, lookup m root n = some e → ¬ IsTable m root e.ppn ∧ e.ppn ∉ m.free)
    (hwalk : NPAGES ≤ n → E "walk")
    (hnone : lookup m root n = none → E "uvmunmap: walk" ∧ E "uvmunmap: not mapped")
    (hleaf : ∀ e, lookup m root n = some e → e = .table e.ppn → E "uvmunmap: not a leaf")
    (hkfree : doFree = true → ∀ e, lookup m root n = some e → e.ppn < lay.lo ∨ phystopPage ≤ e.ppn → E "kfree") :
    Post E (unmapPage lay root (n * 4096) doFree) m fun _ t => Unmapped m root n t := by
  have hdiv : n * 4096 / 4096 = n := by omega
  rw [unmapPage]
  by_cases hva : n * 4096 < MAXVA
  · have hn : n < NPAGES := by
      unfold MAXVA at hva
      unfold NPAGES
      omega
    rw [post_run_bind (walk_descend hva), hdiv]
    cases hq : descend format m.pte root (path n) with
    | none => exact (hnone (lookup_none hq)).1
    | some q =>
      have hent := lookup_entry hn hq
      dsimp only [Option.map_some]
      rw [readPte, post_read_bind]
      generalize m.pte q (n % 512) = e at hent
      cases hv : e.v with
      | false =>
        rw [hv, if_neg (by simp)] at hent
        rw [if_pos rfl]
        exact (hnone hent).2
      | true =>
        rw [hv, if_pos rfl] at hent
        rw [if_neg (by simp)]
        split
        next hflags => exact hleaf e hent hflags
        next hflags =>
          cases doFree with
          | false =>
            rw [when, if_neg (by simp)]
            refine ⟨h.write hq, ?_, fun x => h.isTable_write hq, fun x hx => .inl hx⟩
            exact h.lookup_write (e := .zero) hn hq
          | true =>
            obtain ⟨hx, hfree⟩ := hown rfl e hent
            rw [when, if_pos rfl, kfree]
            split
            next hbad => exact hkfree rfl e hent hbad
            next hok =>
              obtain ⟨hwf, hlook, htable⟩ := h.release (c := fun _ => .ones) hx hfree
              have hq' : descend format (m.setPage e.ppn fun _ => .ones).pte root (path n) = some q := by
                rw [descend_frame isPath_path (setPage_pte hx), hq]
              refine ⟨hwf.write hq', ?_, fun x => (hwf.isTable_write hq').trans (htable x), fun x hx => ?_⟩
              · rw [← hlook]
                exact hwf.lookup_write (e := .zero) hn hq'
              · rcases List.mem_cons.mp hx with rfl | hx
                · exact .inr ⟨e, hent, rfl⟩
                · exact .inl hx
  · have hge : NPAGES ≤ n := by
      unfold MAXVA at hva
      unfold NPAGES
      omega
    rw [post_bind, walk, if_pos (by omega)]
    exact hwalk hge

/-- The pages bound in a range belong to the caller: they are different, and neither free nor tables. -/
structure Owned (m : Mem) (root first k : Nat) : Prop where
  own : ∀ n e, first ≤ n → n < first + k → lookup m root n = some e → ¬ IsTable m root e.ppn ∧ e.ppn ∉ m.free
  inj : ∀ n n' e e', first ≤ n → n < first + k → first ≤ n' → n' < first + k → lookup m root n = some e →
    lookup m root n' = some e' → e.ppn = e'.ppn → n = n'

theorem unbindRange_zero : unbindRange f first 0 = f := by
  funext n
  rw [unbindRange, if_neg (by omega)]

theorem unbindRange_succ :
    Function.update (unbindRange f first k) (first + k) none = unbindRange f first (k + 1) := by
  funext n
  rw [Function.update_apply]
  unfold unbindRange
  by_cases hn : n = first + k
  · subst hn
    rw [if_pos rfl, if_pos (by omega)]
  · rw [if_neg hn]
    by_cases hr : first ≤ n ∧ n < first + k
    · rw [if_pos hr, if_pos (by omega)]
    · rw [if_neg hr, if_neg (by omega)]

theorem uvmunmap_map {npages : Nat} (h : WellFormed m root)
    (hk : unmapRounds va npages = k) (hown : doFree = true → Owned m root (va / 4096) k)
    (halign : va % 4096 ≠ 0 → E "uvmunmap: not aligned")
    (hwalk : NPAGES < va / 4096 + k → E "walk")
    (hnone : (∃ n, va / 4096 ≤ n ∧ n < va / 4096 + k ∧ lookup m root n = none) →
      E "uvmunmap: walk" ∧ E "uvmunmap: not mapped")
    (hleaf : (∃ n e, va / 4096 ≤ n ∧ n < va / 4096 + k ∧ lookup m root n = some e ∧ e = .table e.ppn) →
      E "uvmunmap: not a leaf")
    (hkfree : (doFree = true ∧ ∃ n e, va / 4096 ≤ n ∧ n < va / 4096 + k ∧ lookup m root n = some e ∧
      (e.ppn < lay.lo ∨ phystopPage ≤ e.ppn)) → E "kfree") :
    Post E (uvmunmap lay root va npages doFree) m fun _ t => WellFormed t root ∧
      lookup t root = unbindRange (lookup m root) (va / 4096) k := by
  unfold uvmunmap
  rw [hk]
  split
  next hbad => exact halign hbad
  next hok =>
    have hva : va = va / 4096 * 4096 := by
      unfold PGSIZE at hok
      omega
    generalize va / 4096 = first at *
    -- after `i` pages the map has lost their bindings, and what became free are the pages they led to
    refine (Post.loop (I := fun i t => WellFormed t root ∧ lookup t root = unbindRange (lookup m root) first i ∧
      (∀ x, IsTable t root x ↔ IsTable m root x) ∧ ∀ x ∈ t.free, x ∈ m.free ∨
        ∃ n e, first ≤ n ∧ n < first + i ∧ lookup m root n = some e ∧ e.ppn = x) ?_ ?_).mono
      fun _ t ht => ⟨ht.1, ht.2.1⟩
    · exact ⟨h, unbindRange_zero.symm, fun _ => Iff.rfl, fun _ hx => .inl hx⟩
    · rintro i t hi ⟨ht, hmap, htable, hfree⟩
      have hold : lookup t root (first + i) = lookup m root (first + i) := by
        rw [hmap, unbindRange, if_neg (by omega)]
      rw [hva, show first * 4096 + i * PGSIZE = (first + i) * 4096 by unfold PGSIZE; omega]
      refine (unmapPage_map ht ?_ ?_ ?_ ?_ ?_).mono ?_
      · intro hd e he
        rw [hold] at he
        have hO := hown hd
        obtain ⟨hx, hnf⟩ := hO.own _ e (by omega) (by omega) he
        refine ⟨by rwa [htable], fun hin => ?_⟩
        rcases hfree _ hin with hin | ⟨n, e', hn1, hn2, he', hpp⟩
        · exact hnf hin
        · have := hO.inj n (first + i) e' e hn1 (by omega) (by omega) (by omega) he' he hpp
          omega
      · intro hge
        exact hwalk (by omega)
      · intro hz
        exact hnone ⟨first + i, by omega, by omega, by rwa [hold] at hz⟩
      · intro e he hflags
        exact hleaf ⟨first + i, e, by omega, by omega, by rwa [hold] at he, hflags⟩
      · intro hd e he hbad
        exact hkfree ⟨hd, first + i, e, by omega, by omega, by rwa [hold] at he, hbad⟩
      · rintro _ u hu
        refine ⟨hu.wf, ?_, fun x => (hu.table x).trans (htable x), fun x hx => ?_⟩
        · rw [hu.map, hmap, unbindRange_succ]
        · rcases hu.free x hx with hx | ⟨e, he, hpp⟩
          · rcases hfree x hx with hx | ⟨n, e, hn1, hn2, he, hpp⟩
            · exact .inl hx
            · exact .inr ⟨n, e, hn1, by omega, he, hpp⟩
          · exact .inr ⟨first + i, e, by omega, by omega, by rwa [hold] at he, hpp⟩

theorem walkaddr_map (hva : va < MAXVA) : walkaddr root va m =
    .ok ((lookup m root (va / 4096)).bind fun e => if e.u then some e.ppn else none, m) := by
  obtain ⟨_, _, hn⟩ := px_path hva
  unfold walkaddr
  rw [if_neg (Nat.not_le.mpr hva), run_bind (walk_descend hva)]
  cases hq : descend format m.pte root (path (va / 4096)) with
  | none =>
    rw [lookup_none hq]
    rfl
  | some q =>
    rw [lookup_entry hn hq]
    dsimp only [Option.map_some]
    rw [readPte, run_bind run_read]
    cases hv : (m.pte q (va / 4096 % 512)).v with
    | false => rfl
    | true =>
      cases hu : (m.pte q (va / 4096 % 512)).u with
      | false => simp [hu]
      | true => simp [hu]

theorem Represents.descend_one (h : Represents m.pte T) (hi : i < 512) :
    descend format m.pte T.root [i] = T.node 1 i := by
  have hent := h.inner 1 0 T.root h.top i hi
  rw [Nat.mul_zero, Nat.zero_add] at hent
  rw [← List.nil_append [i], descend_snoc (q := T.root) rfl]
  cases hb : T.node 1 i with
  | none =>
    rw [hb] at hent
    rw [show (m.pte T.root i).v = false from hent, if_neg (by simp)]
  | some q =>
    rw [hb] at hent
    rw [show m.pte T.root i = .table q from hent]
    rfl

theorem Represents.descend_two {j : Nat} (h : Represents m.pte T) (hi : i < 512) (hj : j < 512) :
    descend format m.pte T.root [i, j] = T.node 0 (512 * i + j) := by
  have hone := h.descend_one hi
  rw [show [i, j] = [i] ++ [j] from rfl]
  cases hq : T.node 1 i with
  | none =>
    have hnone : T.node 0 (512 * i + j) = none := by
      by_contra hne
      have := h.parent 0 (512 * i + j) (by decide) hne
      rw [show (512 * i + j) / 512 = i by omega] at this
      exact this hq
    rw [descend_append, hone, hq, hnone]
    rfl
  | some q =>
    have hent := h.inner 0 i q hq j hj
    rw [descend_snoc (hone.trans hq)]
    cases hb : T.node 0 (512 * i + j) with
    | none =>
      rw [hb] at hent
      rw [show (m.pte q j).v = false from hent, if_neg (by simp)]
    | some x =>
      rw [hb] at hent
      rw [show m.pte q j = .table x from hent]
      rfl

def code (p : List Nat) : Nat := p.foldl (fun a i => 512 * a + i) 0

theorem Represents.descend_eq (h : Represents m.pte T) (hp : IsPath 512 2 p) :
    descend format m.pte T.root p = T.node (2 - p.length) (code p) := by
  obtain ⟨hlen, hlt⟩ := hp
  rcases p with _ | ⟨i, _ | ⟨j, _ | ⟨k, p⟩⟩⟩
  · exact h.top.symm
  · simpa [code] using h.descend_one (hlt i (by simp))
  · simpa [code] using h.descend_two (hlt i (by simp)) (hlt j (by simp))
  · simp only [List.length_cons] at hlen
    omega

theorem code_inj {p' : List Nat} (hp : IsPath 512 2 p) (hp' : IsPath 512 2 p') (hlen : p.length = p'.length)
    (h : code p = code p') : p = p' := by
  obtain ⟨hle, hlt⟩ := hp
  obtain ⟨_, hlt'⟩ := hp'
  rcases p with _ | ⟨i, _ | ⟨j, _ | ⟨k, p⟩⟩⟩ <;> rcases p' with _ | ⟨i', _ | ⟨j', _ | ⟨k', p'⟩⟩⟩ <;>
    simp only [List.length_cons, List.length_nil] at hlen hle <;> first | omega | skip
  · rfl
  · simpa [code] using h
  · have hj := hlt j (by simp)
    have hj' := hlt' j' (by simp)
    simp only [code, List.foldl_cons, List.foldl_nil] at h
    simp only [List.cons.injEq, and_true]
    omega

theorem Good.wellFormed {G : Ghost} {d : Nat} (h : Good lay G m)
    (hT : G.table d = some T) : WellFormed m d ∧ ∀ n, n < NPAGES → lookup m d n = T.leaf n := by
  have hrep := h.rep d T hT
  have hroot := h.root d T hT
  subst hroot
  refine ⟨⟨?_, ?_, h.nodup⟩, fun n hn => ?_⟩
  · intro p p' q hp hp' hq hq'
    rw [hrep.descend_eq hp] at hq
    rw [hrep.descend_eq hp'] at hq'
    obtain ⟨hl, hc⟩ := (h.distinct hT).node_inj hq hq'
    have h1 := hp.1
    have h2 := hp'.1
    exact code_inj hp hp' (by omega) hc
  · rintro q hq ⟨p, hp, hd⟩
    rw [hrep.descend_eq hp] at hd
    have hspot : At G m (.spot T.root (.node (2 - p.length) (code p))) q := ⟨T, hT, hd⟩
    have hfree : At G m .free q := hq
    cases h.part.unique _ _ q hspot hfree
  · have htwo := hrep.descend_two (i := n / 512 / 512 % 512) (j := n / 512 % 512) (by omega) (by omega)
    have hidx : 512 * (n / 512 / 512 % 512) + n / 512 % 512 = n / 512 := by
      unfold NPAGES at hn
      omega
    rw [hidx] at htwo
    cases hq : T.node 0 (n / 512) with
    | none =>
      have hleaf : T.leaf n = none := by
        by_contra hne
        exact hrep.leaf_parent n hne hq
      rw [hleaf, lookup_none (htwo.trans hq)]
    | some q =>
      have hent := hrep.bottom (n / 512) q hq (n % 512) (Nat.mod_lt _ (by decide))
      rw [show 512 * (n / 512) + n % 512 = n by omega] at hent
      rw [lookup_entry hn (htwo.trans hq)]
      cases hl : T.leaf n with
      | none =>
        rw [hl] at hent
        rw [show (m.pte q (n % 512)).v = false from hent, if_neg (by simp)]
      | some e =>
        rw [hl] at hent
        rw [hent.1, hent.2.1, if_pos rfl]

def MapPanics (m : Mem) (root va size : Nat) (msg : String) : Prop :=
  msg = "mappages: size" ∧ size = 0 ∨
    msg = "walk" ∧ (NPAGES ≤ lastPage va size ∨ lastPage va size < va / 4096) ∨
    msg = "mappages: remap" ∧ ∃ n, InRange (va / 4096) (lastPage va size) n ∧ lookup m root n ≠ none

def UnmapPanics (lay : Layout) (m : Mem) (root va npages : Nat) (doFree : Bool) (msg : String) : Prop :=
  msg = "uvmunmap: not aligned" ∧ va % 4096 ≠ 0 ∨ msg = "walk" ∧ NPAGES < va / 4096 + npages ∨
    (msg = "uvmunmap: walk" ∨ msg = "uvmunmap: not mapped") ∧
      (∃ n, va / 4096 ≤ n ∧ n < va / 4096 + npages ∧ lookup m root n = none) ∨
    msg = "uvmunmap: not a leaf" ∧ (∃ n e, va / 4096 ≤ n ∧ n < va / 4096 + npages ∧ lookup m root n = some e ∧
      e = .table e.ppn) ∨
    msg = "kfree" ∧ doFree = true ∧ ∃ n e, va / 4096 ≤ n ∧ n < va / 4096 + npages ∧ lookup m root n = some e ∧
      (e.ppn < lay.lo ∨ phystopPage ≤ e.ppn)

/-- A page table is a map from page numbers to entries: `walk` finds the entry of a page, `walkaddr`
looks up a user page, `mappages` binds exactly the pages of its range or, when memory runs out, only some
of them, and `uvmunmap` removes exactly its bindings. -/
theorem pagetable_map (lay : Layout) (h : WellFormed m root) :
    (∀ va, va < MAXVA → Returns (walk root va false) m fun r t => t = m ∧ lookup m root (va / 4096) =
      r.bind fun x => if (m.pte x.1 x.2).v then some (m.pte x.1 x.2) else none) ∧
    (∀ va, va < MAXVA → Returns (walk root va true) m fun r t => WellFormed t root ∧ lookup t root = lookup m root ∧
      ∀ x, r = some x → lookup t root (va / 4096) = if (t.pte x.1 x.2).v then some (t.pte x.1 x.2) else none) ∧
    (∀ va, va < MAXVA → Returns (walkaddr root va) m fun r t => t = m ∧
      ∀ pa, r = some pa ↔ ∃ e, lookup m root (va / 4096) = some e ∧ e.u = true ∧ e.ppn = pa) ∧
    (∀ va size pa perm, pa < 4503599627370496 →
      Post (MapPanics m root va size) (mappages root va size pa perm) m fun ok t => WellFormed t root ∧
        (ok = true → va / 4096 ≤ lastPage va size ∧
          lookup t root = bindRange (lookup m root) (va / 4096) (lastPage va size + 1 - va / 4096) pa perm) ∧
        (ok = false → ∀ n, ¬ InRange (va / 4096) (lastPage va size) n → lookup t root n = lookup m root n)) ∧
    (∀ va npages doFree k, unmapRounds va npages = k → (doFree = true → Owned m root (va / 4096) k) →
      Post (UnmapPanics lay m root va k doFree) (uvmunmap lay root va npages doFree) m fun _ t =>
        WellFormed t root ∧ lookup t root = unbindRange (lookup m root) (va / 4096) k) ∧
    ∀ va npages, va + npages * PGSIZE < 18446744073709551616 → unmapRounds va npages = npages := by
  refine ⟨fun va hva => ?_, fun va hva => ?_, fun va hva => ?_, fun va size pa perm hpa => ?_,
    fun va npages doFree k hk hown => ?_, fun _ _ => unmapRounds_eq⟩
  · obtain ⟨_, _, hn⟩ := px_path hva
    rw [Returns, Post, walk_descend hva]
    refine ⟨rfl, ?_⟩
    cases hq : descend format m.pte root (path (va / 4096)) with
    | none => exact lookup_none hq
    | some q => exact lookup_entry hn hq
  · obtain ⟨_, _, hn⟩ := px_path hva
    refine (walk_add h hva).mono ?_
    rintro r t ⟨ht, hlook, hr⟩
    refine ⟨ht, hlook, fun x hx => ?_⟩
    rcases hr with rfl | ⟨q, rfl, hq⟩
    · cases hx
    · cases hx
      exact lookup_entry hn hq
  · rw [Returns, Post, walkaddr_map hva]
    refine ⟨rfl, fun pa => ?_⟩
    cases lookup m root (va / 4096) with
    | none => simp
    | some e => simp
  · refine (mappages_map h hpa (fun hz => .inl ⟨rfl, hz⟩) (fun hz => .inr (.inl ⟨rfl, hz⟩))
      fun hz => .inr (.inr ⟨rfl, hz⟩)).mono ?_
    rintro ok t ⟨ht, hyes, hno⟩
    refine ⟨ht, hyes, fun hf n hn => ?_⟩
    obtain ⟨j, hj, hlook⟩ := hno hf
    rw [hlook, bindRange, if_neg fun hin => hn ⟨hin.1, by omega⟩]
  · exact uvmunmap_map h hk hown (fun hz => .inl ⟨rfl, hz⟩) (fun hz => .inr (.inl ⟨rfl, hz⟩))
      (fun hz => ⟨.inr (.inr (.inl ⟨.inl rfl, hz⟩)), .inr (.inr (.inl ⟨.inr rfl, hz⟩))⟩)
      (fun hz => .inr (.inr (.inr (.inl ⟨rfl, hz⟩)))) fun hz => .inr (.inr (.inr (.inr ⟨rfl, hz⟩)))

def emptyTable : Mem := ⟨[7, 8, 9], fun _ _ => .zero, fun _ => false⟩

theorem emptyTable_wellFormed : WellFormed emptyTable 5 := by
  have hnil : ∀ p q, descend format emptyTable.pte 5 p = some q → p = [] ∧ q = 5 := by
    intro p q hq
    cases p with
    | nil => exact ⟨rfl, (Option.some.inj hq).symm⟩
    | cons i p => cases hq
  refine ⟨fun p p' q _ _ hq hq' => ?_, ?_, by decide⟩
  · rw [(hnil p q hq).1, (hnil p' q hq').1]
  · rintro q hmem ⟨p, _, hq⟩
    rw [(hnil p q hq).2] at hmem
    revert hmem
    decide

/-- A range that crosses a page boundary is bound to two pages, and one that wraps around to its first
page is bound to one. -/
theorem pagetable_map_two : WellFormed emptyTable 5 ∧
    (∃ t, mappages 5 12298 4096 100 .user emptyTable = .ok (true, t) ∧ WellFormed t 5 ∧
      lookup t 5 = bindRange (lookup emptyTable 5) 3 2 100 .user) ∧
    ∃ t, mappages 5 4098 18446744073709551615 100 .user emptyTable = .ok (true, t) ∧ WellFormed t 5 ∧
      lookup t 5 = bindRange (lookup emptyTable 5) 1 1 100 .user := by
  have hmap : ∀ va size, (mappages 5 va size 100 .user emptyTable).toOption.any Prod.fst = true →
      ∃ t, mappages 5 va size 100 .user emptyTable = .ok (true, t) ∧ WellFormed t 5 ∧ lookup t 5 =
        bindRange (lookup emptyTable 5) (va / 4096) (lastPage va size + 1 - va / 4096) 100 .user := by
    intro va size hrun
    have lay : Layout := ⟨0x80001, 0x80000, by decide, by decide⟩
    have hpost := (pagetable_map lay emptyTable_wellFormed).2.2.2.1 va size 100 .user (by decide)
    cases hm : mappages 5 va size 100 .user emptyTable with
    | error e =>
      rw [hm] at hrun
      cases hrun
    | ok r =>
      obtain ⟨ok, t⟩ := r
      rw [hm] at hrun
      cases hrun
      obtain ⟨ht, hyes, _⟩ := hpost.of_eq hm
      exact ⟨t, rfl, ht, (hyes rfl).2⟩
  exact ⟨emptyTable_wellFormed, hmap 12298 4096 (by decide +kernel), hmap 4098 18446744073709551615 (by decide +kernel)⟩

end TweakedXv6.Vm
