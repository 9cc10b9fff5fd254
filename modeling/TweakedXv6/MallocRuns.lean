import Mathlib.Data.List.Nodup
import TweakedXv6.MallocHeap

namespace TweakedXv6.Malloc

def State.obtained (s : State) (x : Nat) : Prop := ∃ r ∈ s.heap, r.1 ≤ x ∧ x < r.1 + r.2

def State.blocks (s : State) : List Nat := s.live.map Prod.fst

/-- The free list is a circle through `base`, strictly increasing from there on, in which no block
reaches the next; live and free blocks together are the memory from `sbrk`. -/
structure Sound (s : State) : Prop where
  unused : s.freep = none → s.heap = [] ∧ s.live = []
  list : ∀ f, s.freep = some f → ∃ L, f ∈ s.base :: L ∧ Circle s.ptr s.base L ∧
    (s.base :: L).Pairwise (fun a b => s.stop a < b) ∧ (∀ a ∈ L, ∀ d ∈ s.blocks, s.apart a d) ∧
    ∀ x, s.obtained x ↔ s.covers L x ∨ s.covers s.blocks x
  live : s.blocks.Pairwise s.apart
  enough : ∀ b ∈ s.live, b.1 + unit + b.2 ≤ s.stop b.1

/-- The argument of `sbrk` stays an `int`, and the heap small enough for the size of a block to be an
`uint`. -/
def small (s : State) : Act → Bool
  | .malloc nbytes answers => nbytes ≤ 2147483616 ∧ s.brk ≤ 34359738368 ∧
      answers.all fun a => a.all fun p => p < 34359738368
  | .free _ => true

def Fit (s : State) : Prop :=
  s.freep = none ∧ s.heap = [] ∧ s.live = [] ∧ s.base + unit ≤ s.brk ∨
    ∃ L, Listed s L s.blocks ∧ (∀ b ∈ s.live, b.1 + unit + b.2 ≤ s.stop b.1) ∧
      ∀ x, s.obtained x ↔ s.covers (s.base :: L) x ∨ s.covers s.blocks x

variable {s t u : State} {L L₁ D D' : List Nat} {a : Act} {bp n x p : Nat} {answers : List (Option Nat)}

theorem apart_symm {a b : Nat} (h : s.apart a b) : s.apart b a := h.symm

theorem Inv.perm (h : Inv s L D) (hp : D.Perm D') : Inv s L D' where
  circle := h.circle
  order := h.order
  base0 := h.base0
  pos := h.pos
  bound := h.bound
  block d hd := h.block d (hp.mem_iff.mpr hd)
  apart a ha d hd := h.apart a ha d (hp.mem_iff.mpr hd)
  apartD := (hp.pairwise_iff apart_symm).mp h.apartD
  low := h.low
  small := h.small

theorem Fit.sound (h : Fit s) : Sound s := by
  rcases h with ⟨hf, hheap, hlive, _⟩ | ⟨L, ⟨hinv, g, hg, hgm⟩, henough, htile⟩
  · refine ⟨fun _ => ⟨hheap, hlive⟩, fun f hs => ?_, ?_, ?_⟩
    · rw [hf] at hs
      cases hs
    · simp [State.blocks, hlive]
    · simp [hlive]
  · refine ⟨fun hs => ?_, fun f hs => ?_, hinv.apartD, henough⟩
    · rw [hg] at hs
      cases hs
    · cases hg.symm.trans hs
      refine ⟨L, hgm, hinv.circle, hinv.order, fun a ha => hinv.apart a (List.mem_cons_of_mem _ ha), fun x => ?_⟩
      rw [htile x, covers_cons, hinv.stop_base]
      refine or_congr_left (or_iff_right fun hx => ?_)
      omega

theorem units_eq (h : n ≤ 2147483616) : 0 < units n ∧ units n < 134217728 ∧ n + unit ≤ unit * units n := by
  unfold units uint unit
  omega

theorem listed_first (hlow : s.base < s.brk) (hsmall : s.brk ≤ 34359738368) :
    Listed { (s.setPtr s.base s.base).setSize s.base 0 with freep := some s.base } [] [] := by
  refine Inv.listed (s := (s.setPtr s.base s.base).setSize s.base 0) ?_ List.mem_cons_self
  have hstop : ((s.setPtr s.base s.base).setSize s.base 0).stop s.base = s.base := by simp [State.stop]
  refine ⟨Circle.nil ?_, List.pairwise_singleton _ _, ?_, by simp, ?_, by simp, by simp, .nil, hlow, ?_⟩
  · change ((s.setPtr s.base s.base).setSize s.base 0).ptr s.base = s.base
    simp
  · change ((s.setPtr s.base s.base).setSize s.base 0).size s.base = 0
    simp
  · intro a ha
    cases List.mem_singleton.mp ha
    change ((s.setPtr s.base s.base).setSize s.base 0).stop s.base ≤ s.brk
    rw [hstop]
    exact hlow.le
  · exact hsmall.trans (by decide)

theorem Grown.fit {len : Nat} (h : Grown s L s.blocks p len u L₁)
    (henough : ∀ b ∈ s.live, b.1 + unit + b.2 ≤ s.stop b.1)
    (htile : ∀ x, s.obtained x ↔ s.covers (s.base :: L) x ∨ s.covers s.blocks x) :
    Listed u L₁ u.blocks ∧ (∀ b ∈ u.live, b.1 + unit + b.2 ≤ u.stop b.1) ∧
      ∀ x, u.obtained x ↔ u.covers (u.base :: L₁) x ∨ u.covers u.blocks x := by
  have hblocks : u.blocks = s.blocks := by rw [State.blocks, h.live, State.blocks]
  refine ⟨hblocks ▸ h.list, fun b hb => ?_, fun x => ?_⟩
  · rw [h.live] at hb
    rw [stop_congr (h.mem b.1 (List.mem_map_of_mem hb))]
    exact henough b hb
  · have hx := htile x
    rw [h.covers x, hblocks, covers_congr fun d hd => stop_congr (h.mem d hd)]
    unfold State.obtained at hx ⊢
    rw [h.heap, List.exists_mem_cons_iff, hx]
    grind

theorem fit_malloc {f : Nat} (h : Listed s L s.blocks) (hf : s.freep = some f)
    (henough : ∀ b ∈ s.live, b.1 + unit + b.2 ≤ s.stop b.1)
    (htile : ∀ x, s.obtained x ↔ s.covers (s.base :: L) x ∨ s.covers s.blocks x) (hn : n ≤ 2147483616)
    (hans : ∀ p, some p ∈ answers → p < 34359738368) :
    ∃ r t, mallocLoop (units n) (2 * s.brk + 4) s answers f (s.ptr f) = some (r, t) ∧
      (r = none ∧ Fit t ∨ ∃ q, r = some q ∧ Fit { t with live := (q, n) :: t.live }) := by
  obtain ⟨hpos, hlt, hroom⟩ := units_eq hn
  obtain ⟨u, L₁, hu, hres⟩ := mallocLoop_spec (2 * s.brk + 4) h hpos hlt hans (by omega) hf
  have hfit : Listed u L₁ u.blocks ∧ (∀ b ∈ u.live, b.1 + unit + b.2 ≤ u.stop b.1) ∧
      (∀ x, u.obtained x ↔ u.covers (u.base :: L₁) x ∨ u.covers u.blocks x) ∧ u.blocks = s.blocks := by
    rcases hu with ⟨rfl, rfl⟩ | ⟨p, hg⟩
    · exact ⟨h, henough, htile, rfl⟩
    · obtain ⟨h1, h2, h3⟩ := hg.fit henough htile
      exact ⟨h1, h2, h3, by rw [State.blocks, hg.live, State.blocks]⟩
  obtain ⟨hlist, henough', htile', hblocks⟩ := hfit
  rcases hres with hnone | ⟨q, t, L', hsome, ht⟩
  · exact ⟨none, u, hnone, .inl ⟨rfl, .inr ⟨L₁, hlist, henough', htile'⟩⟩⟩
  · obtain ⟨hbase, hbrk, hheap, hlive⟩ := ht.same
    have htb : t.blocks = u.blocks := by rw [State.blocks, hlive, State.blocks]
    rw [← hblocks] at ht
    have hstopq : q + unit + n ≤ t.stop q := by
      rw [State.stop, ht.size]
      omega
    have hmem : ∀ d ∈ t.blocks, t.stop d = u.stop d := fun d hd => stop_congr (ht.mem d (htb ▸ hd))
    obtain ⟨hinv, g, hg, hgm⟩ := ht.list
    refine ⟨some q, t, hsome, .inr ⟨q, rfl, .inr ⟨L', ?_, fun b hb => ?_, fun x => ?_⟩⟩⟩
    · have hb : State.blocks { t with live := (q, n) :: t.live } = q :: u.blocks := congrArg (q :: ·) htb
      rw [hb]
      exact ⟨{ hinv with }, g, hg, hgm⟩
    · rcases List.mem_cons.mp hb with rfl | hb
      · exact hstopq
      · change b.1 + unit + b.2 ≤ t.stop b.1
        rw [hmem b.1 (List.mem_map_of_mem hb)]
        exact henough' b (hlive ▸ hb)
    · have hx := htile' x
      have hcov := ht.covers x
      have hobt : State.obtained { t with live := (q, n) :: t.live } x ↔ u.obtained x := by
        unfold State.obtained
        rw [show State.heap { t with live := (q, n) :: t.live } = u.heap from hheap]
      have hb : State.covers { t with live := (q, n) :: t.live } (State.blocks { t with live := (q, n) :: t.live }) x ↔
          (q ≤ x ∧ x < t.stop q) ∨ u.covers u.blocks x := by
        change t.covers (q :: t.blocks) x ↔ _
        rw [covers_cons, covers_congr hmem, htb]
      rw [hobt, hx, hb, ← hcov]
      change _ ↔ t.covers (t.base :: L') x ∨ _
      grind

theorem fit_free (h : Fit s) (hbp : bp ∈ s.blocks) :
    ∃ t, free s bp = some t ∧ Fit { t with live := t.live.filter fun b => b.1 ≠ bp } := by
  rcases h with ⟨_, _, hlive, _⟩ | ⟨L, ⟨hinv, g, hg, hgm⟩, henough, htile⟩
  · simp [State.blocks, hlive] at hbp
  · generalize hD : (s.live.filter fun b => b.1 ≠ bp).map Prod.fst = D
    have hnodup : s.blocks.Nodup := by
      refine hinv.apartD.imp_of_mem ?_
      intro a b ha _ hab he
      subst he
      have := lt_stop (hinv.block a ha).2.1
      unfold State.apart at hab
      omega
    have hperm : s.blocks.Perm (bp :: D) := by
      have herase : s.blocks.erase bp = D := by
        rw [hnodup.erase_eq_filter, ← hD, State.blocks, List.filter_map]
        congr 2
        funext b
        simp [bne, beq_eq_decide]
      rw [← herase]
      exact List.perm_cons_erase hbp
    obtain ⟨t, L', hfree, ⟨hinv', g', hg', hgm'⟩, ⟨hbase, hbrk, hheap, hlive⟩, hmem, _, _, hcov⟩ :=
      free_spec ⟨hinv.perm hperm, g, hg, hgm⟩
    have hb : State.blocks { t with live := t.live.filter fun b => b.1 ≠ bp } = D := by
      rw [← hD, ← hlive]
      rfl
    refine ⟨t, hfree, .inr ⟨L', ?_, fun b hb' => ?_, fun x => ?_⟩⟩
    · rw [hb]
      exact ⟨{ hinv' with }, g', hg', hgm'⟩
    · obtain ⟨hbl, hne⟩ := List.mem_filter.mp hb'
      rw [hlive] at hbl
      have hbD : b.1 ∈ D := by
        rw [← hD]
        exact List.mem_map_of_mem (List.mem_filter.mpr ⟨hbl, hne⟩)
      change b.1 + unit + b.2 ≤ t.stop b.1
      rw [stop_congr (hmem b.1 hbD)]
      exact henough b hbl
    · have hx := htile x
      rw [hb]
      change t.obtained x ↔ t.covers (t.base :: L') x ∨ t.covers D x
      rw [hcov x, covers_congr fun d hd => stop_congr (hmem d hd)]
      have hobt : t.obtained x ↔ s.obtained x := by rw [State.obtained, hheap, State.obtained]
      have hblk : s.covers s.blocks x ↔ bp ≤ x ∧ x < s.stop bp ∨ s.covers D x := by
        rw [← covers_cons]
        unfold State.covers
        refine exists_congr fun a => and_congr_left fun _ => hperm.mem_iff
      rw [hobt, hx, hblk]
      grind

theorem malloc_fit (h : Fit s) (hsmall : small s (.malloc n answers) = true) :
    ∃ r t, malloc s n answers = some (r, t) ∧
      (r = none ∧ Fit t ∨ ∃ q, r = some q ∧ Fit { t with live := (q, n) :: t.live }) := by
  simp only [small, decide_eq_true_eq, List.all_eq_true] at hsmall
  obtain ⟨hn, hbrk, hall⟩ := hsmall
  have hans : ∀ p, some p ∈ answers → p < 34359738368 := fun p hp => by simpa using hall _ hp
  rcases h with ⟨hf, hheap, hlive, hlow⟩ | ⟨L, ⟨hinv, g, hg, hgm⟩, henough, htile⟩
  · have hbase : s.base < s.brk := by
      unfold unit at hlow
      omega
    generalize ht : ({ (s.setPtr s.base s.base).setSize s.base 0 with freep := some s.base } : State) = t
    have hlist : Listed t [] [] := ht ▸ listed_first hbase hbrk
    have hblocks : t.blocks = [] := by rw [← ht, State.blocks, State.setSize, State.setPtr, hlive, List.map_nil]
    have htheap : t.heap = [] := by rw [← ht, State.setSize, State.setPtr, hheap]
    have hstop := hlist.1.stop_base
    rw [malloc, hf]
    dsimp only
    rw [ht, show s.brk = t.brk by rw [← ht]; rfl]
    refine fit_malloc (L := []) (hblocks ▸ hlist) (by rw [← ht]) (fun b hb => ?_) (fun x => ?_) hn hans
    · rw [show t.live = [] by rw [← ht, State.setSize, State.setPtr, hlive]] at hb
      cases hb
    · rw [State.obtained, htheap, hblocks, covers_cons, hstop]
      simp only [List.not_mem_nil, false_and, exists_false, State.covers, or_false, false_iff]
      omega
  · rw [malloc, hg]
    exact fit_malloc ⟨hinv, g, hg, hgm⟩ hg henough htile hn hans

theorem fit_act (h : Fit s) (hsmall : small s a = true) (hs : act s a = some t) : Fit t := by
  cases a with
  | malloc n answers =>
    obtain ⟨r, u, hm, hfit⟩ := malloc_fit h hsmall
    simp only [act, hm, Option.map_some, Option.ite_none_right_eq_some, Option.some.injEq] at hs
    obtain ⟨_, rfl⟩ := hs
    rcases hfit with ⟨rfl, hu⟩ | ⟨q, rfl, hu⟩
    · exact hu
    · exact hu
  | free bp =>
    simp only [act, Option.ite_none_right_eq_some, List.contains_iff_mem] at hs
    obtain ⟨hbp, hs⟩ := hs
    obtain ⟨u, hu, hfit⟩ := fit_free h hbp
    rw [hu, Option.map_some, Option.some.injEq] at hs
    exact hs ▸ hfit

theorem Boot.fit (h : Boot s) : Fit s := .inl ⟨h.freep, h.heap, h.live, h.brk⟩

/-- In the runs whose requests are small the allocator stays in order, and every call returns. -/
theorem heap_sound (h : machine.Reach (fun s a => small s a = true) s) :
    Sound s ∧ (∀ n answers, small s (.malloc n answers) = true → (malloc s n answers).isSome) ∧
      ∀ bp ∈ s.blocks, (free s bp).isSome := by
  have hfit : Fit s := h.invariant (fun _ hs => Boot.fit hs) fun _ _ _ _ hi hc hs => fit_act hi hc hs
  refine ⟨hfit.sound, fun n answers hsmall => ?_, fun bp hbp => ?_⟩
  · obtain ⟨r, t, hm, _⟩ := malloc_fit hfit hsmall
    rw [hm]
    rfl
  · obtain ⟨t, ht, _⟩ := fit_free hfit hbp
    rw [ht]
    rfl

def boot : State where
  base := 2048
  mem := fun _ => ⟨0, 0⟩
  freep := none
  brk := 4096
  heap := []
  live := []

theorem boot_boot : Boot boot := ⟨rfl, rfl, rfl, by decide⟩

theorem heap_sound_two : ∃ s, machine.Reach (fun s a => small s a = true) s ∧ s.blocks = [69456] ∧ Sound s := by
  have hrun : ((machine.run boot [.malloc 100 [some 4096], .malloc 24 [], .free 69504]).any fun s =>
      s.blocks = [69456]) = true := by decide +kernel
  obtain ⟨s, hs, hblocks⟩ := exists_of_any hrun
  have hmeets : machine.Meets (fun s a => small s a = true) boot
      [.malloc 100 [some 4096], .malloc 24 [], .free 69504] := by decide +kernel
  have hreach := Machine.Reach.of_run (.start boot_boot) hmeets hs
  exact ⟨s, hreach, hblocks, (heap_sound hreach).1⟩

/-- The product in the call of `sbrk` is cut to an `int`: sixteen bytes come back for four gigabytes. -/
theorem malloc_wraps : ∃ s, machine.Reachable s ∧ s.heap = [(4096, 16)] ∧ s.live = [(4096, 4294967295)] ∧
    ¬ Sound s := by
  have hrun : ((machine.run boot [.malloc 4294967295 [some 4096]]).any fun s => s.freep = some 2048 ∧
      s.heap = [(4096, 16)] ∧ s.live = [(4096, 4294967295)] ∧ s.stop 4096 = 4294971408) = true := by
    decide +kernel
  obtain ⟨s, hs, hfreep, hheap, hlive, hstop⟩ := exists_of_any hrun
  refine ⟨s, Machine.Reachable.of_run boot_boot hs, hheap, hlive, fun hsound => ?_⟩
  obtain ⟨L, _, _, _, _, htile⟩ := hsound.list 2048 hfreep
  have hcovers : s.covers s.blocks 4112 :=
    ⟨4096, by rw [State.blocks, hlive]; exact List.mem_singleton_self _, by omega, by omega⟩
  obtain ⟨r, hr, _, hlt⟩ := (htile 4112).mpr (.inr hcovers)
  rw [hheap, List.mem_singleton] at hr
  subst hr
  omega

end TweakedXv6.Malloc
