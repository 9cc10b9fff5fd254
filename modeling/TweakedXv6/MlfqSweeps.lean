import TweakedXv6.Loop
import TweakedXv6.MlfqPush
import TweakedXv6.MlfqSelect
import TweakedXv6.Sweep

namespace TweakedXv6.Mlfq

open Sweep (kept taken Spread)

def State.gone (s : State) (p : Nat) : Bool := (s.proc p).state = .zombie ∨ (s.proc p).state = .sleeping

def PurgeOk (s : State) : Prop :=
  ∃ t, purge s = some t ∧ (∀ q < 5, t.queues.list q = (s.queues.list q).filter (!s.gone ·)) ∧
    ∀ q < 5, ∀ p ∈ t.queues.list q, t.gone p = false

def sweepSlot (bad : State → Nat → Bool) (act : State → Nat → Option State) (q : Nat) (s : State) (j : Nat) :
    Option State :=
  if j < s.queues.size q then
    match s.queues.at q j with
    | none => none
    | some p => if bad s p then act s p else some s
  else some s

def purgeAct (q : Nat) (s : State) (p : Nat) : Option State :=
  (s.setProc p { s.proc p with cqueue := -1 }).remove p q

variable {s t : State} {p q r i j m n : Nat} {done rest l : List Nat} {bad : State → Nat → Bool}
  {act : State → Nat → Option State}

theorem purgeSlot_eq : purgeSlot q = sweepSlot State.gone (purgeAct q) q := by
  funext s j
  unfold purgeSlot sweepSlot
  cases s.queues.at q j with
  | none => rfl
  | some p => simp only [State.gone, purgeAct, decide_eq_true_eq]

theorem sweep_past (hj : s.queues.size q ≤ j) : (List.range' j m).foldlM (sweepSlot bad act q) s = some s := by
  refine foldlM_fixed fun a ha => if_neg ?_
  have := (List.mem_range'_1.mp ha).1
  omega

theorem row_at (h : s.queues.Ok) (hq : q < 5) (hl : s.queues.list q = done ++ p :: rest) :
    done.length < s.queues.size q ∧ s.queues.at q done.length = some p := by
  have hL := h.lists
  have hlen : done.length < (s.queues.list q).length := by
    rw [hl]
    simp
  refine ⟨by rwa [hL.size q hq], ?_⟩
  rw [hL.entry q hq _ hlen, hl]
  simp

theorem sweepSlot_at (bad : State → Nat → Bool) (act : State → Nat → Option State) (h : s.queues.Ok)
    (hq : q < 5) (hl : s.queues.list q = done ++ p :: rest) :
    sweepSlot bad act q s done.length = if bad s p then act s p else some s := by
  obtain ⟨hlt, hat⟩ := row_at h hq hl
  rw [sweepSlot, if_pos hlt, hat]

theorem sweep_row (bad : State → Nat → Bool) (act : State → Nat → Option State) {I : State → Prop}
    (hok : ∀ s, I s → s.queues.Ok) (hq : q < 5)
    (hact : ∀ s done x rest t, I s → s.queues.list q = done ++ x :: rest → act s x = some t →
      I t ∧ t.queues.list q = done ++ rest ∧ ∀ y ∈ rest, bad t y = bad s y)
    (hs : I s) (hl : s.queues.list q = done ++ rest) (hm : rest.length ≤ m) :
    (List.range' done.length m).foldlM (sweepSlot bad act q) s = (taken (bad s) rest).foldlM act s ∧
      ∀ t, (taken (bad s) rest).foldlM act s = some t → I t ∧ t.queues.list q = done ++ kept (bad s) rest := by
  have hsize : ∀ s, I s → s.queues.size q = (s.queues.list q).length := fun s hs => (hok s hs).lists.size q hq
  induction m generalizing s done rest with
  | zero =>
    have hrest : rest = [] := List.length_eq_zero_iff.mp (Nat.le_zero.mp hm)
    subst hrest
    refine ⟨rfl, fun t ht => ?_⟩
    cases ht
    exact ⟨hs, hl⟩
  | succ m ih =>
    cases rest with
    | nil =>
      refine ⟨sweep_past (by rw [hsize s hs, hl, List.append_nil]), fun t ht => ?_⟩
      cases ht
      exact ⟨hs, hl⟩
    | cons x rest =>
      have hm : rest.length ≤ m := Nat.le_of_succ_le_succ hm
      rw [List.range'_succ, List.foldlM_cons, sweepSlot_at bad act (hok s hs) hq hl]
      cases hx : bad s x with
      | false =>
        have hshift : done ++ x :: rest = (done ++ [x]) ++ rest := by simp
        have hlen : done.length + 1 = (done ++ [x]).length := by simp
        rw [Sweep.kept_good hx, Sweep.taken_good hx, hlen]
        have := ih hs (hl.trans hshift) hm
        simpa using this
      | true =>
        rw [Sweep.kept_bad hx, Sweep.taken_bad hx, List.foldlM_cons, if_pos rfl]
        cases ht : act s x with
        | none => exact ⟨rfl, fun t ht => by cases ht⟩
        | some t =>
          obtain ⟨hIt, hlt, hbad⟩ := hact s done x rest t hs hl ht
          simp only [Option.bind_eq_bind, Option.bind_some]
          cases rest with
          | nil =>
            refine ⟨sweep_past (by rw [hsize t hIt, hlt]; simp), fun u hu => ?_⟩
            cases hu
            exact ⟨hIt, hlt⟩
          | cons y rest =>
            -- `y` has moved to the place of `x`, which the index has passed
            have hcongr : kept (bad t) rest = kept (bad s) rest ∧ taken (bad t) rest = taken (bad s) rest :=
              Sweep.congr fun z hz => hbad z (List.mem_cons_of_mem y hz)
            have hshift : done ++ y :: rest = (done ++ [y]) ++ rest := by simp
            have hlen : done.length + 1 = (done ++ [y]).length := by simp
            have := ih hIt (hlt.trans hshift) (Nat.le_of_succ_le hm)
            rw [hcongr.1, hcongr.2] at this
            rw [hlen]
            simpa using this

theorem sweepSlot_returns {I : State → Prop} (hq : q < 5) (hok : ∀ s, I s → s.queues.Ok)
    (hact : ∀ s done x rest, I s → s.queues.list q = done ++ x :: rest → ∃ t, act s x = some t ∧ I t)
    (s : State) (j : Nat) (hs : I s) : ∃ t, sweepSlot bad act q s j = some t ∧ I t := by
  by_cases hj : j < s.queues.size q
  · have hlt : j < (s.queues.list q).length := by rwa [← (hok s hs).lists.size q hq]
    have hl : s.queues.list q = (s.queues.list q).take j ++ (s.queues.list q)[j] :: (s.queues.list q).drop (j + 1) := by
      rw [List.getElem_cons_drop, List.take_append_drop]
    have hat := sweepSlot_at bad act (hok s hs) hq hl
    rw [List.length_take, Nat.min_eq_left (Nat.le_of_lt hlt)] at hat
    rw [hat]
    split
    next => exact hact s _ _ _ hs hl
    next => exact ⟨s, rfl, hs⟩
  · exact ⟨s, if_neg hj, hs⟩

def OwnPids (s : State) (l : List Nat) : Prop := (l.map s.pids).Nodup

theorem OwnPids.sublist {l' : List Nat} (h : OwnPids s l) (hs : l'.Sublist l) : OwnPids s l' :=
  List.Nodup.sublist (hs.map _) h

theorem OwnPids.findIdx (h : OwnPids s (done ++ p :: rest)) :
    (done ++ p :: rest).findIdx? (fun k => s.pids k = s.pids p) = some done.length := by
  have hne : ∀ k ∈ done, s.pids k ≠ s.pids p := by
    unfold OwnPids at h
    rw [List.map_append, List.nodup_append] at h
    exact fun k hk => h.2.2 _ (List.mem_map_of_mem hk) _ (List.mem_map_of_mem List.mem_cons_self)
  rw [List.findIdx?_append, List.findIdx?_eq_none_iff.mpr fun k hk => by simpa using hne k hk]
  simp [List.findIdx?_cons]

def State.without (s : State) (p q i : Nat) : State :=
  { s.setProc p { s.proc p with cqueue := -1 } with queues := s.queues.close q i }

theorem purgeAct_eq (h : s.queues.Ok) (hq : q < 5) (hl : s.queues.list q = done ++ p :: rest)
    (hpid : OwnPids s (s.queues.list q)) : purgeAct q s p = some (s.without p q done.length) := by
  have hfind : (s.queues.list q).findIdx? (fun k => s.pids k = s.pids p) = some done.length := by
    rw [hl] at hpid ⊢
    exact hpid.findIdx
  have hpids : (s.setProc p { s.proc p with cqueue := -1 }).pids = s.pids := by
    funext k
    by_cases hk : k = p
    · subst hk
      simp [State.pids, State.setProc]
    · simp [State.pids, State.setProc, hk]
  unfold purgeAct State.remove
  rw [hpids, show (s.setProc p { s.proc p with cqueue := -1 }).queues = s.queues from rfl,
    remove_found h.lists hq hfind]
  rfl

theorem sameButLevel_without : SameButLevel s (s.without p q i) := by
  intro k
  by_cases hk : k = p
  · subst hk
    exact ⟨-1, by simp [State.without, State.setProc]⟩
  · exact ⟨(s.proc k).cqueue, by simp [State.without, State.setProc, hk]⟩

theorem without_lists (h : s.queues.Ok) (hq : q < 5) (hl : s.queues.list q = done ++ p :: rest) :
    Lists (s.without p q done.length).queues (Function.update s.queues.list q (done ++ rest)) := by
  have herase : (s.queues.list q).eraseIdx done.length = done ++ rest := by
    rw [hl, List.eraseIdx_append_of_length_le (Nat.le_refl _)]
    simp
  have hlt : done.length < (s.queues.list q).length := by
    rw [hl]
    simp
  have := h.lists.close hq hlt
  rwa [herase] at this

theorem SameButLevel.refl (s : State) : SameButLevel s s := fun k => ⟨(s.proc k).cqueue, rfl⟩

theorem SameButLevel.trans {u : State} (h : SameButLevel s t) (h' : SameButLevel t u) : SameButLevel s u := by
  intro k
  obtain ⟨c, hc⟩ := h k
  obtain ⟨d, hd⟩ := h' k
  exact ⟨d, by rw [hd, hc]⟩

theorem SameButLevel.gone (h : SameButLevel s t) : t.gone = s.gone := by
  funext k
  rw [State.gone, State.gone, h.state]

theorem purge_row (h : s.queues.Ok) (hq : q < 5) (hpid : OwnPids s (s.queues.list q)) :
    ∃ t, (List.range (s.queues.size q)).foldlM (purgeSlot q) s = some t ∧ SameButLevel s t ∧
      t.queues.Ok ∧ ∀ r < 5, t.queues.list r = if r = q then kept s.gone (s.queues.list q) else s.queues.list r := by
  -- the invariant of the sweep
  let I (t : State) : Prop := SameButLevel s t ∧ t.queues.Ok ∧ OwnPids s (t.queues.list q) ∧
    ∀ r < 5, r ≠ q → t.queues.list r = s.queues.list r
  have hstep : ∀ t done x rest, I t → t.queues.list q = done ++ x :: rest →
      ∃ u, purgeAct q t x = some u ∧ I u ∧ u.queues.list q = done ++ rest ∧ u.gone = t.gone := by
    intro t done x rest ⟨hsame, hok, hown, hrest⟩ hl
    have hown' : OwnPids t (t.queues.list q) := by
      unfold OwnPids
      rwa [hsame.pids]
    have hlists := without_lists hok hq hl
    have hrow : (t.without x q done.length).queues.list q = done ++ rest := by
      rw [hlists.list_eq hq, Function.update_self]
    refine ⟨_, purgeAct_eq hok hq hl hown', ⟨hsame.trans sameButLevel_without, hlists.ok, ?_, fun r hr hne => ?_⟩,
      hrow, sameButLevel_without.gone⟩
    · rw [hrow]
      rw [hl] at hown
      exact hown.sublist ((List.sublist_cons_self x rest).append_left done)
    · rw [hlists.list_eq hr, Function.update_of_ne hne, hrest r hr hne]
  have hI : I s := ⟨.refl s, h, hpid, fun _ _ _ => rfl⟩
  have hsweep := sweep_row State.gone (purgeAct q) (I := I) (s := s) (m := s.queues.size q)
    (fun t ht => ht.2.1) hq ?_ hI (List.nil_append _).symm (Nat.le_of_eq (h.lists.size q hq).symm)
  · obtain ⟨t, ht, hIt⟩ := foldlM_returns (I := I) (f := sweepSlot State.gone (purgeAct q) q)
      (l := List.range (s.queues.size q)) (sweepSlot_returns hq (fun t ht => ht.2.1) fun t done x rest ht hl => by
        obtain ⟨u, hu, hIu, _⟩ := hstep t done x rest ht hl
        exact ⟨u, hu, hIu⟩) hI
    have hrow := (hsweep.2 t (hsweep.1 ▸ (List.range_eq_range' ▸ ht))).2
    rw [purgeSlot_eq]
    refine ⟨t, ht, hIt.1, hIt.2.1, fun r hr => ?_⟩
    split
    next he => rw [he, hrow, List.nil_append]
    next hne => exact hIt.2.2.2 r hr hne
  · intro t done x rest u ht hl hu
    obtain ⟨v, hv, hIv, hlist, hgone⟩ := hstep t done x rest ht hl
    cases hu.symm.trans hv
    exact ⟨hIv, hlist, fun y _ => congrFun hgone y⟩

theorem purge_rows (h : s.queues.Ok) (hpid : ∀ q < 5, OwnPids s (s.queues.list q)) (hn : n ≤ 5) :
    ∃ t, (List.range n).foldlM (fun s q => (List.range (s.queues.size q)).foldlM (purgeSlot q) s) s = some t ∧
      SameButLevel s t ∧ t.queues.Ok ∧
      ∀ r < 5, t.queues.list r = if r < n then kept s.gone (s.queues.list r) else s.queues.list r := by
  induction n with
  | zero => exact ⟨s, rfl, .refl s, h, fun r _ => rfl⟩
  | succ n ih =>
    obtain ⟨t, ht, hsame, hok, hlists⟩ := ih (Nat.le_of_succ_le hn)
    have hrow : t.queues.list n = s.queues.list n := by rw [hlists n hn, if_neg (Nat.lt_irrefl n)]
    have hown : OwnPids t (t.queues.list n) := by
      rw [OwnPids, hsame.pids, hrow]
      exact hpid n hn
    obtain ⟨u, hu, hsame', hok', hlists'⟩ := purge_row hok hn hown
    refine ⟨u, ?_, hsame.trans hsame', hok', fun r hr => ?_⟩
    · rw [List.range_succ, List.foldlM_append, ht]
      change (List.foldlM (purgeSlot n) t (List.range (t.queues.size n)) >>= fun t => some t) = some u
      rw [hu]
      rfl
    · rw [hlists' r hr, hsame.gone]
      by_cases hrn : r = n
      · rw [if_pos hrn, if_pos (by omega), hrow, hrn]
      · rw [if_neg hrn, hlists r hr]
        by_cases hlt : r < n
        · rw [if_pos hlt, if_pos (by omega)]
        · rw [if_neg hlt, if_neg (by omega)]

/-- The first sweep takes out every process it should exactly when no two of them are neighbours. -/
theorem purgeOk_iff (h : s.queues.Ok) (hpid : ∀ q < 5, OwnPids s (s.queues.list q)) :
    PurgeOk s ↔ ∀ q < 5, Spread s.gone (s.queues.list q) := by
  obtain ⟨t, ht, hsame, _, hlists⟩ := purge_rows h hpid (Nat.le_refl 5)
  have hlists : ∀ r < 5, t.queues.list r = kept s.gone (s.queues.list r) := by
    intro r hr
    rw [hlists r hr, if_pos hr]
  constructor
  · rintro ⟨u, hu, _, hclean⟩ q hq
    cases ht.symm.trans hu
    refine Sweep.spread_of_kept fun p hp => ?_
    rw [← hlists q hq] at hp
    exact hsame.gone ▸ hclean q hq p hp
  · intro hspread
    have hkept : ∀ q < 5, t.queues.list q = (s.queues.list q).filter (!s.gone ·) := by
      intro q hq
      rw [hlists q hq, (hspread q hq).eq_filter.1]
    refine ⟨t, ht, hkept, fun q hq p hp => ?_⟩
    rw [hkept q hq, List.mem_filter] at hp
    rw [hsame.gone]
    simpa using hp.2

end TweakedXv6.Mlfq
