import Mathlib.Data.List.Perm.Basic
import TweakedXv6.MlfqArrays
import TweakedXv6.MlfqModel

namespace TweakedXv6.Mlfq

def State.first (s : State) (l : List Nat) : Option Nat := l.find? fun p => (s.proc p).state = .runnable

/-- The first RUNNABLE process of the lowest-numbered queue that has one is selected and leaves its
queue, and nothing else changes. -/
def Selects (s : State) (r : State × Option Nat) : Prop :=
  (r = (s, none) ∧ ∀ q < 5, s.first (s.queues.list q) = none) ∨
  ∃ q j p, q < 5 ∧ (∀ q' < q, s.first (s.queues.list q') = none) ∧
    (s.queues.list q)[j]? = some p ∧ (s.proc p).state = .runnable ∧
    (∀ i < j, ∀ k, (s.queues.list q)[i]? = some k → (s.proc k).state ≠ .runnable) ∧
    r.2 = some p ∧ (∀ k, k ≠ p → r.1.proc k = s.proc k) ∧
    ∀ q' < 5, r.1.queues.list q' = if q' = q then (s.queues.list q).eraseIdx j else s.queues.list q'

/-- At most one queue has a RUNNABLE process, and the first one in it is also the first entry with its
pid. -/
def OneRunnable (s : State) : Prop :=
  (∀ q < 5, ∀ q' < 5, s.first (s.queues.list q) ≠ none → s.first (s.queues.list q') ≠ none → q = q') ∧
  ∀ q < 5, ∀ p, s.first (s.queues.list q) = some p →
    (s.queues.list q).find? (fun k => s.pids k = s.pids p) = some p

def State.rest (s : State) (l : List Nat) : List Nat :=
  (s.first l).elim l fun p => l.eraseP fun k => s.pids k = s.pids p

variable {s t : State} {L : Nat → List Nat} {p q a m n j : Nat} {l : List Nat} {r : State × Option Nat}

def SameButLevel (s t : State) : Prop := ∀ k, ∃ c, t.proc k = { s.proc k with cqueue := c }

theorem SameButLevel.state (h : SameButLevel s t) (k : Nat) : (t.proc k).state = (s.proc k).state := by
  obtain ⟨c, hc⟩ := h k
  rw [hc]

theorem SameButLevel.pids (h : SameButLevel s t) : t.pids = s.pids := by
  funext k
  obtain ⟨c, hc⟩ := h k
  rw [State.pids, hc, State.pids]

theorem SameButLevel.first (h : SameButLevel s t) : t.first = s.first := by
  funext l
  unfold State.first
  congr 1
  funext k
  rw [h.state]

theorem SameButLevel.rest (h : SameButLevel s t) : t.rest = s.rest := by
  funext l
  rw [State.rest, State.rest, h.first, h.pids]

theorem selectFrom_range (h : Lists s.queues L) (hq : q < 5) (ham : a + m = (L q).length) :
    selectFrom s q (List.range' a m) =
      (s.first ((L q).drop a)).elim (some (s, none)) fun p =>
        (State.remove (s.setProc p { s.proc p with cqueue := -1 }) p q).map fun t => (t, some p) := by
  induction m generalizing a with
  | zero =>
    rw [List.drop_eq_nil_of_le (by omega)]
    rfl
  | succ m ih =>
    have ha : a < (L q).length := by omega
    have hslot : s.queues.at q a = some (L q)[a] := by rw [h.entry q hq a ha, List.getElem?_eq_getElem ha]
    rw [List.range'_succ, selectFrom, hslot, List.drop_eq_getElem_cons ha, State.first, List.find?_cons]
    by_cases hrun : (s.proc (L q)[a]).state = .runnable
    · simp [hrun]
    · simp only [hrun, if_false, decide_false]
      exact ih (by omega)

theorem selectFrom_spec (h : Lists s.queues L) (hq : q < 5) :
    ∃ t, selectFrom s q (List.range (s.queues.size q)) = some (t, s.first (L q)) ∧
      Lists t.queues (Function.update L q (s.rest (L q))) ∧ SameButLevel s t ∧
      (∀ k, s.first (L q) ≠ some k → t.proc k = s.proc k) ∧ (s.first (L q) = none → t = s) := by
  rw [h.size q hq, List.range_eq_range', selectFrom_range h hq (Nat.zero_add _), List.drop_zero, State.rest]
  cases hf : s.first (L q) with
  | none =>
    refine ⟨s, rfl, h.congr fun r _ => ?_, fun k => ⟨(s.proc k).cqueue, rfl⟩, fun _ _ => rfl, fun _ => rfl⟩
    by_cases hr : r = q
    · rw [hr, Function.update_self]
      rfl
    · rw [Function.update_of_ne hr]
  | some p =>
    obtain ⟨r, hr, hlists⟩ := remove_lists s.pids p h hq
    have hpids : (s.setProc p { s.proc p with cqueue := -1 }).pids = s.pids := by
      funext k
      by_cases hk : k = p
      · simp [State.pids, State.setProc, hk]
      · simp [State.pids, State.setProc, hk]
    refine ⟨{ s.setProc p { s.proc p with cqueue := -1 } with queues := r.1 }, ?_, hlists, fun k => ?_, ?_, nofun⟩
    · simp only [Option.elim, State.remove, hpids]
      rw [show (s.setProc p { s.proc p with cqueue := -1 }).queues = s.queues from rfl, hr]
      rfl
    · by_cases hk : k = p
      · exact ⟨-1, by simp [State.setProc, hk]⟩
      · exact ⟨(s.proc k).cqueue, by simp [State.setProc, hk]⟩
    · intro k hk
      have hne : k ≠ p := fun he => hk (by rw [he])
      simp [State.setProc, hne]

theorem select_upto (h : Lists s.queues L) (hn : n ≤ 5) :
    ∃ r, (List.range n).foldlM (fun r q => (selectFrom r.1 q (List.range (r.1.queues.size q))).map fun r' =>
        (r'.1, r'.2.orElse fun _ => r.2)) (s, none) = some r ∧
      Lists r.1.queues (fun q => if q < n then s.rest (L q) else L q) ∧ SameButLevel s r.1 ∧
      (∀ k, (∀ q < n, s.first (L q) ≠ some k) → r.1.proc k = s.proc k) ∧
      ((∀ q < n, s.first (L q) = none) → r = (s, none)) ∧
      ∀ q < n, (∀ q', q < q' → q' < n → s.first (L q') = none) → s.first (L q) ≠ none → r.2 = s.first (L q) := by
  induction n with
  | zero =>
    refine ⟨(s, none), rfl, h.congr fun q _ => by simp, fun k => ⟨(s.proc k).cqueue, rfl⟩, fun _ _ => rfl,
      fun _ => rfl, fun q hq => absurd hq (Nat.not_lt_zero q)⟩
  | succ n ih =>
    obtain ⟨r, hr, hlists, hsame, hproc, hnone, hlast⟩ := ih (by omega)
    obtain ⟨t, ht, htlists, htsame, htproc, htnone⟩ := selectFrom_spec hlists (show n < 5 by omega)
    simp only [Nat.lt_irrefl, if_false, hsame.first, hsame.rest] at ht htlists htproc htnone
    refine ⟨(t, (s.first (L n)).orElse fun _ => r.2), ?_, htlists.congr fun q _ => ?_, fun k => ?_, fun k hk => ?_,
      fun hk => ?_, fun q hq hafter hne => ?_⟩
    · rw [List.range_succ, List.foldlM_append, hr]
      simp [ht]
    · by_cases hqn : q = n
      · simp [hqn]
      · rw [Function.update_of_ne hqn]
        simp only [show q < n + 1 ↔ q < n by omega]
    · obtain ⟨c, hc⟩ := hsame k
      obtain ⟨c', hc'⟩ := htsame k
      exact ⟨c', by rw [hc', hc]⟩
    · rw [htproc k (hk n (by omega)), hproc k fun q hq => hk q (by omega)]
    · have hn := hk n (by omega)
      have hrs := hnone fun q hq => hk q (by omega)
      rw [htnone hn, hn, hrs]
      rfl
    · by_cases hqn : q = n
      · subst hqn
        obtain ⟨p, hp⟩ := Option.ne_none_iff_exists'.mp hne
        rw [hp]
        rfl
      · rw [hafter n (by omega) (by omega)]
        exact hlast q (by omega) (fun q' h1 h2 => hafter q' h1 (by omega)) hne

theorem rest_length (h : s.first l ≠ none) : (s.rest l).length + 1 = l.length := by
  obtain ⟨p, hp⟩ := Option.ne_none_iff_exists'.mp h
  have hmem : p ∈ l := List.mem_of_find?_eq_some hp
  rw [State.rest, hp, Option.elim, List.length_eraseP_of_mem hmem (by simp)]
  have := List.length_pos_of_mem hmem
  omega

theorem rest_none (h : s.first l = none) : s.rest l = l := by
  rw [State.rest, h]
  rfl

theorem first_index (h : s.first l = some p) : ∃ j : Nat, l[j]? = some p ∧ (s.proc p).state = .runnable ∧
      ∀ i < j, ∀ k, l[i]? = some k → (s.proc k).state ≠ .runnable := by
  obtain ⟨hp, j, hj, hget, hbefore⟩ := List.find?_eq_some_iff_getElem.mp h
  refine ⟨j, by rw [List.getElem?_eq_getElem hj, hget], by simpa using hp, fun i hi k hk => ?_⟩
  have hlt : i < l.length := by omega
  rw [List.getElem?_eq_getElem hlt] at hk
  cases hk
  simpa using hbefore i hi

theorem first_of_index (hj : l[j]? = some p) (hrun : (s.proc p).state = .runnable)
    (hbefore : ∀ i < j, ∀ k, l[i]? = some k → (s.proc k).state ≠ .runnable) : s.first l = some p := by
  obtain ⟨hlt, hget⟩ := List.getElem?_eq_some_iff.mp hj
  refine List.find?_eq_some_iff_getElem.mpr ⟨by simpa using hrun, j, hlt, hget, fun i hi => ?_⟩
  simpa using hbefore i hi _ (List.getElem?_eq_getElem (by omega))

theorem rest_eq (hf : s.first l = some p) (hj : l[j]? = some p)
    (hbefore : ∀ i < j, ∀ k, l[i]? = some k → (s.proc k).state ≠ .runnable)
    (hpid : l.find? (fun k => s.pids k = s.pids p) = some p) : s.rest l = l.eraseIdx j := by
  obtain ⟨_, i, hi, hget, hfirst⟩ := List.find?_eq_some_iff_getElem.mp hpid
  obtain ⟨_, _, hrun, _⟩ := first_index hf
  obtain ⟨hlt, hgetj⟩ := List.getElem?_eq_some_iff.mp hj
  have hij : i = j := by
    rcases Nat.lt_trichotomy i j with h | h | h
    · exact absurd hrun (hbefore i h p (by rw [List.getElem?_eq_getElem hi, hget]))
    · exact h
    · have := hfirst j h
      simp [hgetj] at this
  subst hij
  have hidx : l.findIdx? (fun k => s.pids k = s.pids p) = some i :=
    List.findIdx?_eq_some_iff_getElem.mpr ⟨hi, by simp [hget], fun i hlt => by simpa using hfirst i hlt⟩
  rw [State.rest, hf, Option.elim, List.eraseP_eq_eraseIdx, hidx]

theorem pid_of_rest (hf : s.first l = some p) (hj : l[j]? = some p) (hrest : s.rest l = l.eraseIdx j) :
    l.find? (fun k => s.pids k = s.pids p) = some p := by
  obtain ⟨hlt, hgetj⟩ := List.getElem?_eq_some_iff.mp hj
  cases hk : l.find? fun k => s.pids k = s.pids p with
  | none =>
    have := List.find?_eq_none.mp hk p (List.mem_of_getElem? hj)
    simp at this
  | some k =>
    obtain ⟨hpk, i, hi, hget, hfirst⟩ := List.find?_eq_some_iff_getElem.mp hk
    have hidx : l.findIdx? (fun k => s.pids k = s.pids p) = some i :=
      List.findIdx?_eq_some_iff_getElem.mpr ⟨hi, by rw [hget]; exact hpk, fun i hlt => by simpa using hfirst i hlt⟩
    rw [State.rest, hf, Option.elim, List.eraseP_eq_eraseIdx, hidx] at hrest
    -- both ways of completing the rest give the whole queue
    have hi' := List.getElem_cons_eraseIdx_perm hi
    have hj' := List.getElem_cons_eraseIdx_perm hlt
    rw [hget] at hi'
    rw [hgetj, ← show l.eraseIdx i = l.eraseIdx j from hrest] at hj'
    have hcount := (hi'.trans hj'.symm).count_eq k
    by_contra hne
    have hpk : p ≠ k := fun he => hne (by rw [he])
    simp [hpk] at hcount

theorem selects_first_iff (h : s.queues.Ok) : (∃ r, select s = some r ∧ Selects s r) ↔ OneRunnable s := by
  obtain ⟨r, hr, hlists, _, hproc, hnone, hlast⟩ := select_upto h.lists (Nat.le_refl 5)
  have hsel : select s = some r := hr
  have hafter : ∀ q < 5, r.1.queues.list q = s.rest (s.queues.list q) := by
    intro q hq
    rw [hlists.list_eq hq, if_pos hq]
  constructor
  · rintro ⟨r', hr', hsel'⟩
    cases hsel.symm.trans hr'
    rcases hsel' with ⟨_, hempty⟩ | ⟨q, j, p, hq, hlow, hj, hrun, hbefore, _, _, hlist⟩
    · exact ⟨fun q hq _ _ hne => absurd (hempty q hq) hne, fun q hq p hp => by rw [hempty q hq] at hp; cases hp⟩
    · have hf := first_of_index hj hrun hbefore
      have honly : ∀ q' < 5, s.first (s.queues.list q') ≠ none → q' = q := by
        intro q' hq' hne
        by_contra hqq
        have hrest := rest_length hne
        rw [← hafter q' hq', hlist q' hq', if_neg hqq] at hrest
        omega
      refine ⟨fun q₁ h1 q₂ h2 hn1 hn2 => (honly q₁ h1 hn1).trans (honly q₂ h2 hn2).symm, fun q' hq' p' hp' => ?_⟩
      have hqq := honly q' hq' (by rw [hp']; exact nofun)
      rw [hqq] at hp' ⊢
      cases hf.symm.trans hp'
      refine pid_of_rest hf hj ?_
      rw [← hafter q hq, hlist q hq, if_pos rfl]
  · rintro ⟨hone, hpid⟩
    refine ⟨r, hsel, ?_⟩
    by_cases hempty : ∀ q < 5, s.first (s.queues.list q) = none
    · exact .inl ⟨hnone hempty, hempty⟩
    · simp only [not_forall] at hempty
      obtain ⟨q, hq, hne⟩ := hempty
      have hothers : ∀ q' < 5, q' ≠ q → s.first (s.queues.list q') = none := by
        intro q' hq' hqq
        by_contra hne'
        exact hqq (hone q' hq' q hq hne' hne)
      obtain ⟨p, hp⟩ := Option.ne_none_iff_exists'.mp hne
      obtain ⟨j, hj, hrun, hbefore⟩ := first_index hp
      refine .inr ⟨q, j, p, hq, fun q' hq' => hothers q' (by omega) (by omega), hj, hrun, hbefore, ?_, ?_, ?_⟩
      · rw [hlast q hq (fun q' h1 h2 => hothers q' h2 (by omega)) hne, hp]
      · refine fun k hk => hproc k fun q' hq' he => ?_
        by_cases hqq : q' = q
        · rw [hqq, hp] at he
          exact hk (Option.some.inj he).symm
        · rw [hothers q' hq' hqq] at he
          cases he
      · intro q' hq'
        rw [hafter q' hq']
        split
        next hqq =>
          subst hqq
          exact rest_eq hp hj hbefore (hpid q' hq' p hp)
        next hqq => exact rest_none (hothers q' hq' hqq)

def queueTwo : State :=
  { boot 0 with
    proc := fun k => { state := if k = 0 then .sleeping else .runnable, pid := k + 1, cqueue := 2 }
    queues := { slot := fun a => if 128 ≤ a ∧ a < 131 then some (a - 128) else none,
                size := fun q => if q = 2 then 3 else 0, sizeBelow := 0 } }

theorem selects_first_iff_queueTwo : queueTwo.queues.Ok ∧ ∃ r, select queueTwo = some r ∧ Selects queueTwo r := by
  have hok : queueTwo.queues.Ok := ⟨by decide, by decide⟩
  have hone : OneRunnable queueTwo := by
    refine ⟨by decide, fun q hq p hp => ?_⟩
    have hq2 : q = 2 := by
      by_contra hne
      have hsize : queueTwo.queues.size q = 0 := if_neg hne
      rw [Queues.list, hsize] at hp
      cases hp
    subst hq2
    cases Option.some.inj (hp.symm.trans (show queueTwo.first (queueTwo.queues.list 2) = some 1 by decide))
    decide
  exact ⟨hok, (selects_first_iff hok).mpr hone⟩

def twoQueues : State :=
  { boot 0 with
    proc := fun k => { state := .runnable, pid := k + 1, cqueue := .ofNat k }
    queues := { slot := fun a => if a = 0 then some 0 else if a = 64 then some 1 else none,
                size := fun q => if q < 2 then 1 else 0, sizeBelow := 0 } }

/-- Both processes are taken out of their queues, and the one of queue 1 is selected. -/
theorem select_takes_both : twoQueues.queues.Ok ∧
    (∃ s, select twoQueues = some (s, some 1) ∧ s.queues.list 0 = [] ∧ s.queues.list 1 = []) ∧
    ¬ ∃ r, select twoQueues = some r ∧ Selects twoQueues r := by
  have hrun : ((select twoQueues).any fun r => r.2 = some 1 ∧ r.1.queues.list 0 = [] ∧ r.1.queues.list 1 = []) =
      true := by decide
  obtain ⟨⟨s, sel⟩, hs, hsel, h0, h1⟩ := exists_of_any hrun
  cases hsel
  refine ⟨⟨by decide, by decide⟩, ⟨s, hs, h0, h1⟩, ?_⟩
  rintro ⟨r, hr, hselects⟩
  cases hs.symm.trans hr
  have hfirst : twoQueues.first (twoQueues.queues.list 0) = some 0 := by decide
  rcases hselects with ⟨he, _⟩ | ⟨q, j, p, _, hlow, hj, _, _, hp, _⟩
  · cases (Prod.mk.inj he).2
  · cases hp
    -- process 1 is in queue 1 only, below which queue 0 has a RUNNABLE process
    by_cases hq : q = 0
    · subst hq
      rw [show twoQueues.queues.list 0 = [0] by decide] at hj
      cases List.mem_singleton.mp (List.mem_of_getElem? hj)
    · rw [hlow 0 (by omega)] at hfirst
      cases hfirst

end TweakedXv6.Mlfq
