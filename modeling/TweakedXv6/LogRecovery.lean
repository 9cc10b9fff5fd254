import TweakedXv6.LogModel

namespace TweakedXv6.Log

open RedoLog
open Function (update update_self update_apply update_of_ne)

variable {sb : Super} {base R : Nat → Block} {s t : State} {b i tail : Nat} {u : Update}

def Update.write (u : Update) : Nat × Block := (u.block, u.data)

def contents (base : Nat → Block) (groups : List (List Update)) : Nat → Block :=
  replay base (groups.flatten.map Update.write)

theorem contents_append (base : Nat → Block) (groups : List (List Update)) (g : List Update) :
    contents base (groups ++ [g]) = replay (contents base groups) (g.map Update.write) := by
  simp [contents, replay_append]

theorem headerBlocks_headerWith (h : Block) (lh : List Nat) : headerBlocks (headerWith h lh) = lh := by
  unfold headerBlocks
  refine List.ext_getElem (by simp [headerWith]) fun i hi hlt => ?_
  rw [List.getElem_map, List.getElem_range, headerWith, if_neg (Nat.succ_ne_zero i),
    if_pos (Nat.succ_le_of_lt hlt), Nat.add_sub_cancel, List.getD_eq_getElem?_getD, List.getElem?_eq_getElem hlt,
    Option.getD_some]

theorem headerBlocks_empty {h : Block} (h0 : h 0 = 0) : headerBlocks h = [] := by
  simp [headerBlocks, h0]

theorem logstart_not_home : ¬ sb.Home sb.logstart := by
  have := sb.nlog_pos
  unfold Super.Home
  omega

theorem slot_ne_logstart : sb.layout.slot i ≠ sb.logstart := by
  simp [Super.layout]
  omega

/-- A transaction that has not reached the header: home blocks are those of `R`, and the cache has its
updates on top. -/
structure Pending (sb : Super) (R : Nat → Block) (s : State) : Prop where
  header : s.disk sb.logstart 0 = 0
  mem : ∀ b, sb.Home b → s.mem b = replay R (s.group.map Update.write) b
  group : ∀ u ∈ s.group, u.block ∈ s.lh
  home : ∀ b ∈ s.lh, sb.Home b
  fits : s.lh.length ≤ sb.nlog - 1

def Copied (sb : Super) (s : State) (k : Nat) : Prop :=
  ∀ i b, i < k → s.lh[i]? = some b → s.disk (sb.layout.slot i) = s.mem b

def Clean (sb : Super) (R : Nat → Block) (s : State) : Prop :=
  s.group = [] ∧ ∀ b, sb.Home b → s.mem b = R b

def PhaseOk (sb : Super) (R : Nat → Block) (s : State) : Prop :=
  match s.pc with
  | .idle => Pending sb R s
  | .writeLog tail => Pending sb R s ∧ Copied sb s tail
  | .writeHead => Pending sb R s ∧ Copied sb s s.lh.length
  | .install tail =>
    headerBlocks (s.disk sb.logstart) = s.lh ∧ Clean sb R s ∧ Installed R s.disk s.lh tail
  | .clear => s.lh = [] ∧ Clean sb R s ∧ ∀ b, sb.Home b → s.disk b = R b
  | .finish => s.lh = [] ∧ Pending sb R s
  | .readHead => s.group = [] ∧ s.mem = s.disk
  | .recoverInstall tail =>
    headerBlocks (s.disk sb.logstart) = s.lh ∧ s.group = [] ∧ s.mem = s.disk ∧
      Installed R s.disk s.lh tail
  | .recoverClear => s.lh = [] ∧ s.group = [] ∧ s.mem = s.disk ∧ ∀ b, sb.Home b → s.disk b = R b

structure Inv (sb : Super) (base : Nat → Block) (s : State) : Prop where
  logged : Logged sb.layout (contents base s.committed) s.disk (headerBlocks (s.disk sb.logstart))
  memLog : ∀ b, ¬ sb.Home b → s.mem b = s.disk b
  phase : PhaseOk sb (contents base s.committed) s
  quiet : s.pc ≠ .idle → s.active = []
  busy : s.pc ≠ .idle → s.pc.recovering = false → s.committing = true
  count : s.outstanding = s.active.length

theorem Inv.home_of_empty (h : Inv sb base s) (h0 : s.disk sb.logstart 0 = 0) (hb : sb.Home b) :
    s.disk b = contents base s.committed b :=
  h.logged.rest b hb (by simp [headerBlocks_empty h0])

theorem Inv.commits {c : Pc} (h : Inv sb base s) (hpc : s.pc = c) (hc : c ≠ .idle) (hr : c.recovering = false) :
    s.active = [] ∧ s.committing = true := by
  subst hpc
  exact ⟨h.quiet hc, h.busy hc hr⟩

theorem Inv.logged_bwrite (h : Inv sb base s) (h0 : s.disk sb.logstart 0 = 0) {data : Block} (hb : ¬ sb.Home b)
    (hd : b = sb.logstart → data 0 = 0) : Logged sb.layout (contents base s.committed) (update s.disk b data)
      (headerBlocks (update s.disk b data sb.logstart)) := by
  have hempty : headerBlocks (update s.disk b data sb.logstart) = [] := by
    refine headerBlocks_empty ?_
    by_cases he : sb.logstart = b
    · rw [he, update_self]
      exact hd he.symm
    · rw [update_of_ne he]
      exact h0
  rw [hempty]
  refine Logged.of_eq fun a ha => ?_
  have hne : a ≠ b := fun he => hb (he ▸ ha)
  rw [update_of_ne hne]
  exact h.home_of_empty h0 ha

theorem memLog_bwrite (h : ∀ b, ¬ sb.Home b → s.mem b = s.disk b) (data : Block) :
    ∀ a, ¬ sb.Home a → (s.bwrite b data).mem a = (s.bwrite b data).disk a := by
  intro a ha
  simp only [State.bwrite, update_apply]
  split
  next => rfl
  next => exact h a ha

theorem inv_beginOp (h : Inv sb base s) (hrec : s.pc.recovering = false)
    (ht : beginOp s = some t) : Inv sb base t := by
  unfold beginOp at ht
  obtain ⟨hcom, ht⟩ := Option.ite_none_left_eq_some.mp ht
  obtain ⟨_, ht⟩ := Option.ite_none_left_eq_some.mp ht
  cases ht
  have hidle : s.pc = .idle := by
    by_contra hpc
    exact hcom (h.busy hpc hrec)
  have hphase := h.phase
  simp only [PhaseOk, hidle] at hphase
  refine ⟨h.logged, h.memLog, ?_, fun hpc => absurd hidle hpc, fun hpc => absurd hidle hpc, ?_⟩
  · simp only [PhaseOk, hidle]
    exact { hphase with }
  · simp [h.count]

theorem idle_of_active (h : Inv sb base s) {op : Nat} (hop : op ∈ s.active) : s.pc = .idle := by
  by_contra hpc
  simp [h.quiet hpc] at hop

theorem inv_logWrite (h : Inv sb base s) (hop : u.op ∈ s.active) (hu : sb.Home u.block)
    (ht : logWrite sb s u = some t) : Inv sb base t := by
  unfold logWrite at ht
  obtain ⟨hbig, ht⟩ := Option.ite_none_left_eq_some.mp ht
  obtain ⟨_, ht⟩ := Option.ite_none_left_eq_some.mp ht
  cases ht
  have hidle := idle_of_active h hop
  have hp := h.phase
  simp only [PhaseOk, hidle] at hp
  refine ⟨h.logged, ?_, ?_, h.quiet, h.busy, h.count⟩
  · intro b hb
    have hne : b ≠ u.block := fun he => hb (he ▸ hu)
    simpa [update_of_ne hne] using h.memLog b hb
  · simp only [PhaseOk, hidle]
    constructor
    case header => exact hp.header
    case mem =>
      intro b hb
      have hlast : replay (contents base s.committed) ((s.group ++ [u]).map Update.write) =
          update (replay (contents base s.committed) (s.group.map Update.write))
            u.block u.data := by
        rw [List.map_append, replay_append]
        rfl
      simp only [hlast, update_apply]
      split
      next => rfl
      next => exact hp.mem b hb
    case group =>
      intro v hv
      rcases List.mem_append.mp hv with hv | hv
      · have := hp.group v hv
        split <;> simp [this]
      · cases List.mem_singleton.mp hv
        split <;> simp_all
    case home =>
      intro b hb
      split at hb
      next => exact hp.home b hb
      next =>
        rcases List.mem_append.mp hb with hb | hb
        · exact hp.home b hb
        · exact List.mem_singleton.mp hb ▸ hu
    case fits =>
      have := hp.fits
      unfold TooBig at hbig
      dsimp only
      split
      next => exact hp.fits
      next =>
        rw [List.length_append, List.length_singleton]
        omega

theorem inv_endOp (h : Inv sb base s) {op : Nat} (hop : op ∈ s.active)
    (ht : endOp s op = some t) : Inv sb base t := by
  have hidle := idle_of_active h hop
  have hp := h.phase
  simp only [PhaseOk, hidle] at hp
  have hlen : (s.active.erase op).length = s.active.length - 1 := List.length_erase_of_mem hop
  have hcount := h.count
  unfold endOp at ht
  dsimp only at ht
  obtain ⟨_, ht⟩ := Option.ite_none_left_eq_some.mp ht
  split at ht
  next hzero =>
    cases ht
    have hnone : s.active.erase op = [] := List.eq_nil_of_length_eq_zero (by omega)
    refine ⟨h.logged, h.memLog, ?_, fun _ => hnone, fun _ _ => rfl, by simp [hnone, hzero]⟩
    have hp' : Pending sb (contents base s.committed) { s with
        outstanding := s.outstanding - 1, active := s.active.erase op, committing := true,
        pc := if s.lh.length > 0 then .writeLog 0 else .finish } :=
      { hp with }
    by_cases hlh : s.lh.length > 0
    · simp only [PhaseOk, hlh, if_true] at hp' ⊢
      exact ⟨hp', fun i b hi => absurd hi (Nat.not_lt_zero i)⟩
    · simp only [PhaseOk, hlh, if_false] at hp' ⊢
      exact ⟨List.eq_nil_of_length_eq_zero (by omega), hp'⟩
  next =>
    cases ht
    refine ⟨h.logged, h.memLog, ?_, fun hpc => absurd hidle hpc, fun hpc => absurd hidle hpc, ?_⟩
    · simp only [PhaseOk, hidle]
      exact { hp with }
    · simp only [hlen, hcount]

theorem inv_crash (h : Inv sb base s) : Inv sb base (crash s) :=
  ⟨h.logged, fun _ _ => rfl, ⟨rfl, rfl⟩, fun _ => rfl, fun _ hr => by simp [crash, Pc.recovering] at hr,
    rfl⟩

theorem slot_not_home (hp : Pending sb R s) (hb : s.lh[tail]? = some b) : ¬ sb.Home (sb.logstart + tail + 1) := by
  refine sb.layout.slot_not_home tail ?_
  have := (List.getElem?_eq_some_iff.mp hb).1
  have := hp.fits
  simp only [Super.layout]
  omega

section Advance

variable (h : Inv sb base s)

include h

theorem inv_writeLog_some (hpc : s.pc = .writeLog tail)
    (hb : s.lh[tail]? = some b) :
    Inv sb base { s.bwrite (sb.logstart + tail + 1) (s.mem b) with pc := .writeLog (tail + 1) } := by
  obtain ⟨hquiet, hbusy⟩ := h.commits hpc nofun rfl
  have hphase := h.phase
  simp only [PhaseOk, hpc] at hphase
  obtain ⟨hp, hcopied⟩ := hphase
  have hslot := slot_not_home hp hb
  have hne : sb.logstart + tail + 1 ≠ sb.logstart := by omega
  refine ⟨h.logged_bwrite hp.header hslot fun he => absurd he hne, memLog_bwrite h.memLog _, ?_,
    fun _ => hquiet, fun _ _ => hbusy, h.count⟩
  have hmem : ∀ a, sb.Home a →
      update s.mem (sb.logstart + tail + 1) (s.mem b) a = s.mem a := by
    intro a ha
    have hna : a ≠ sb.logstart + tail + 1 := fun he => hslot (he ▸ ha)
    rw [update_of_ne hna]
  refine ⟨⟨?_, fun a ha => (hmem a ha).trans (hp.mem a ha), hp.group, hp.home, hp.fits⟩, ?_⟩
  · exact (congrFun (update_of_ne hne.symm ..) 0).trans hp.header
  · intro i c hi hc
    have hc' : sb.Home c := hp.home c (List.mem_of_getElem? hc)
    change update s.disk (sb.logstart + tail + 1) (s.mem b) (sb.logstart + i + 1) =
      update s.mem (sb.logstart + tail + 1) (s.mem b) c
    rw [hmem c hc', update_apply]
    split
    next he =>
      have hit : i = tail := by omega
      subst hit
      rw [Option.some.inj (hc.symm.trans hb)]
    next hit => exact hcopied i c (by omega) hc

theorem inv_writeLog_none (hpc : s.pc = .writeLog tail)
    (hb : s.lh[tail]? = none) : Inv sb base { s with pc := .writeHead } := by
  obtain ⟨hquiet, hbusy⟩ := h.commits hpc nofun rfl
  have hphase := h.phase
  simp only [PhaseOk, hpc] at hphase
  obtain ⟨hp, hcopied⟩ := hphase
  refine ⟨h.logged, h.memLog, ⟨{ hp with }, ?_⟩,
    fun _ => hquiet, fun _ _ => hbusy, h.count⟩
  intro i b hi
  have := List.getElem?_eq_none_iff.mp hb
  exact hcopied i b (Nat.lt_of_lt_of_le hi this)

/-- The header write commits: the log then holds the running transaction's blocks, and every other home
block is the same before and after. -/
theorem inv_writeHead (hpc : s.pc = .writeHead) :
    Inv sb base { writeHead sb s with
      pc := .install 0, committed := s.committed ++ [s.group], group := [] } := by
  obtain ⟨hquiet, hbusy⟩ := h.commits hpc nofun rfl
  have hphase := h.phase
  simp only [PhaseOk, hpc] at hphase
  obtain ⟨hp, hcopied⟩ := hphase
  have hhead : headerBlocks (update s.disk sb.logstart
      (headerWith (s.mem sb.logstart) s.lh) sb.logstart) = s.lh := by
    rw [update_self, headerBlocks_headerWith]
  have hnew := contents_append base s.committed s.group
  have hother : ∀ a, sb.Home a → a ≠ sb.logstart := fun a ha he => logstart_not_home (he ▸ ha)
  refine ⟨?_, memLog_bwrite h.memLog _, ⟨hhead, ⟨rfl, ?_⟩, fun i a hi => absurd hi (Nat.not_lt_zero i)⟩,
    fun _ => hquiet, fun _ _ => hbusy, h.count⟩
  · change Logged sb.layout (contents base (s.committed ++ [s.group])) (update s.disk _ _)
      (headerBlocks (update s.disk sb.logstart _ sb.logstart))
    rw [hhead, hnew]
    constructor
    case fits => exact hp.fits
    case home => exact hp.home
    case log =>
      intro i a ha
      have hlt := (List.getElem?_eq_some_iff.mp ha).1
      rw [update_of_ne slot_ne_logstart, hcopied i a hlt ha]
      exact hp.mem a (hp.home a (List.mem_of_getElem? ha))
    case rest =>
      intro a ha hnot
      have hkeep : ∀ w ∈ s.group.map Update.write, w.1 ≠ a := by
        intro w hw he
        obtain ⟨v, hv, rfl⟩ := List.mem_map.mp hw
        exact hnot (he ▸ hp.group v hv)
      rw [update_of_ne (hother a ha), replay_of_not_mem hkeep]
      exact h.home_of_empty hp.header ha
  · intro a ha
    change update s.mem sb.logstart _ a = contents base (s.committed ++ [s.group]) a
    rw [update_of_ne (hother a ha), hnew]
    exact hp.mem a ha

theorem logged_installStep (hhead : headerBlocks (s.disk sb.logstart) = s.lh)
    (hi : Installed (contents base s.committed) s.disk s.lh tail) (hb : s.lh[tail]? = some b) :
    let disk := update s.disk b (s.mem (sb.logstart + tail + 1))
    s.mem (sb.logstart + tail + 1) = contents base s.committed b ∧
    headerBlocks (disk sb.logstart) = s.lh ∧
    Logged sb.layout (contents base s.committed) disk s.lh ∧
    Installed (contents base s.committed) disk s.lh (tail + 1) := by
  have hl : Logged sb.layout (contents base s.committed) s.disk s.lh := hhead ▸ h.logged
  have hlt : tail < sb.layout.cap :=
    Nat.lt_of_lt_of_le (List.getElem?_eq_some_iff.mp hb).1 hl.fits
  have hmem : s.mem (sb.logstart + tail + 1) = s.disk (sb.layout.slot tail) :=
    h.memLog _ (sb.layout.slot_not_home tail hlt)
  have hne : sb.logstart ≠ b :=
    fun he => logstart_not_home (he ▸ hl.home b (List.mem_of_getElem? hb))
  dsimp only
  rw [hmem, update_of_ne hne]
  exact ⟨hl.log tail b hb, hhead, hl.installAt hb, hi.installAt hl hb⟩

theorem installed_all (hhead : headerBlocks (s.disk sb.logstart) = s.lh)
    (hi : Installed (contents base s.committed) s.disk s.lh tail) (hb : s.lh[tail]? = none) :
    ∀ a, sb.Home a → s.disk a = contents base s.committed a := by
  have hl : Logged sb.layout (contents base s.committed) s.disk s.lh := hhead ▸ h.logged
  have hlen := List.getElem?_eq_none_iff.mp hb
  intro a ha
  exact hl.done (fun i c hlt hc => hi i c (Nat.lt_of_lt_of_le hlt hlen) hc) ha

theorem inv_install (hpc : s.pc = .install tail) :
    Inv sb base (installStep sb s tail (.install (tail + 1)) .clear) := by
  have hphase := h.phase
  simp only [PhaseOk, hpc] at hphase
  obtain ⟨hhead, ⟨hgroup, hmem⟩, hi⟩ := hphase
  obtain ⟨hquiet, hbusy⟩ := h.commits hpc nofun rfl
  unfold installStep
  split
  next b hb =>
    obtain ⟨hval, hhead', hlogged, hinst⟩ := logged_installStep h hhead hi hb
    refine ⟨?_, memLog_bwrite h.memLog _, ⟨hhead', ⟨hgroup, ?_⟩, hinst⟩, fun _ => hquiet,
      fun _ _ => hbusy, h.count⟩
    · exact hhead'.symm ▸ hlogged
    · intro a ha
      change update s.mem b (s.mem (sb.logstart + tail + 1)) a = contents base s.committed a
      rw [update_apply]
      split
      next he => rw [he, hval]
      next => exact hmem a ha
  next hb =>
    have hall := installed_all h hhead hi hb
    exact ⟨h.logged, h.memLog, ⟨rfl, ⟨hgroup, hmem⟩, hall⟩, fun _ => hquiet,
      fun _ _ => hbusy, h.count⟩

theorem inv_recoverInstall (hpc : s.pc = .recoverInstall tail) :
    Inv sb base (installStep sb s tail (.recoverInstall (tail + 1)) .recoverClear) := by
  have hphase := h.phase
  simp only [PhaseOk, hpc] at hphase
  obtain ⟨hhead, hgroup, hmem, hi⟩ := hphase
  have hquiet := h.quiet (by simp [hpc])
  unfold installStep
  split
  next b hb =>
    obtain ⟨_, hhead', hlogged, hinst⟩ := logged_installStep h hhead hi hb
    refine ⟨?_, memLog_bwrite h.memLog _, ⟨hhead', hgroup, ?_, hinst⟩, fun _ => hquiet,
      fun _ hr => by simp [Pc.recovering] at hr, h.count⟩
    · exact hhead'.symm ▸ hlogged
    · exact congrArg (fun m => update m b (s.mem (sb.logstart + tail + 1))) hmem
  next hb =>
    have hall := installed_all h hhead hi hb
    exact ⟨h.logged, h.memLog, ⟨rfl, hgroup, hmem, hall⟩, fun _ => hquiet,
      fun _ hr => by simp [Pc.recovering] at hr, h.count⟩

end Advance

theorem pending_clear (hlh : s.lh = []) (hgroup : s.group = [])
    (hmem : ∀ a, sb.Home a → s.mem a = R a) : Pending sb R (writeHead sb s) where
  header := by simp [writeHead, State.bwrite, headerWith, hlh]
  mem a ha := by
    have hne : a ≠ sb.logstart := fun he => logstart_not_home (he ▸ ha)
    simpa [writeHead, State.bwrite, update_of_ne hne, hgroup, replay] using hmem a ha
  group v hv := by simp [writeHead, State.bwrite, hgroup] at hv
  home a ha := by simp [writeHead, State.bwrite, hlh] at ha
  fits := by simp [writeHead, State.bwrite, hlh]

theorem logged_clear (hlh : s.lh = []) (hdisk : ∀ a, sb.Home a → s.disk a = R a) :
    Logged sb.layout R (writeHead sb s).disk (headerBlocks ((writeHead sb s).disk sb.logstart)) := by
  have hempty : headerBlocks ((writeHead sb s).disk sb.logstart) = [] := by
    simp [writeHead, State.bwrite, headerBlocks_headerWith, hlh]
  rw [hempty]
  refine Logged.of_eq fun a ha => ?_
  have hne : a ≠ sb.logstart := fun he => logstart_not_home (he ▸ ha)
  simpa [writeHead, State.bwrite, update_of_ne hne] using hdisk a ha

theorem inv_advance (h : Inv sb base s) (ht : advance sb s = some t) : Inv sb base t := by
  have hphase := h.phase
  unfold advance at ht
  split at ht
  next => simp at ht
  next tail hpc =>
    split at ht
    next b hb => exact Option.some.inj ht ▸ inv_writeLog_some h hpc hb
    next hb => exact Option.some.inj ht ▸ inv_writeLog_none h hpc hb
  next hpc => exact Option.some.inj ht ▸ inv_writeHead h hpc
  next tail hpc => exact Option.some.inj ht ▸ inv_install h hpc
  next hpc =>
    simp only [PhaseOk, hpc] at hphase
    obtain ⟨hlh, ⟨hgroup, hmem⟩, hdisk⟩ := hphase
    have hp := pending_clear hlh hgroup hmem
    refine Option.some.inj ht ▸ ⟨logged_clear hlh hdisk, memLog_bwrite h.memLog _,
      ⟨hlh, hp.header, hp.mem, hp.group, hp.home, hp.fits⟩, fun _ => h.quiet (by simp [hpc]),
      fun _ _ => h.busy (by simp [hpc]) (by simp [hpc, Pc.recovering]), h.count⟩
  next hpc =>
    simp only [PhaseOk, hpc] at hphase
    obtain ⟨_, hp⟩ := hphase
    exact Option.some.inj ht ▸ ⟨h.logged, h.memLog, { hp with },
      fun hi => absurd rfl hi, fun hi => absurd rfl hi, h.count⟩
  next hpc =>
    simp only [PhaseOk, hpc] at hphase
    obtain ⟨hgroup, hmem⟩ := hphase
    refine Option.some.inj ht ▸ ⟨h.logged, h.memLog,
      ⟨?_, hgroup, hmem, fun i a hi => absurd hi (Nat.not_lt_zero i)⟩,
      fun _ => h.quiet (by simp [hpc]), fun _ hr => by simp [Pc.recovering] at hr, h.count⟩
    rw [hmem]
  next tail hpc => exact Option.some.inj ht ▸ inv_recoverInstall h hpc
  next hpc =>
    simp only [PhaseOk, hpc] at hphase
    obtain ⟨hlh, hgroup, hmem, hdisk⟩ := hphase
    have hp := pending_clear hlh hgroup fun a ha => (congrFun hmem a).trans (hdisk a ha)
    refine Option.some.inj ht ▸ ⟨logged_clear hlh hdisk, memLog_bwrite h.memLog _,
      { hp with }, fun hi => absurd rfl hi,
      fun hi => absurd rfl hi, h.count⟩

theorem inv_act {a : Act} (h : Inv sb base s) (ht : act sb s a = some t) : Inv sb base t := by
  cases a with
  | beginOp =>
    simp only [act] at ht
    obtain ⟨hrec, ht⟩ := Option.ite_none_left_eq_some.mp ht
    exact inv_beginOp h (by simpa using hrec) ht
  | logWrite u =>
    simp only [act] at ht
    obtain ⟨hu, ht⟩ := Option.ite_none_right_eq_some.mp ht
    exact inv_logWrite h hu.1 hu.2 ht
  | endOp op =>
    simp only [act] at ht
    obtain ⟨hop, ht⟩ := Option.ite_none_right_eq_some.mp ht
    exact inv_endOp h hop ht
  | advance => exact inv_advance h ht
  | crash => exact Option.some.inj ht ▸ inv_crash h

theorem reachable_inv (h : (machine sb base).Reachable s) : Inv sb base s := by
  refine Machine.Reach.invariant ?_ (fun _ _ _ _ hs _ ht => inv_act hs ht) h
  rintro _ ⟨h0, rfl⟩
  refine ⟨?_, fun _ _ => rfl, ⟨rfl, rfl⟩, fun _ => rfl, fun _ hr => by simp [boot, Pc.recovering] at hr,
    rfl⟩
  simp only [boot, headerBlocks_empty h0]
  exact Logged.of_eq fun _ _ => rfl

end TweakedXv6.Log
