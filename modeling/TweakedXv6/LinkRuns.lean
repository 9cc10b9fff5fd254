import TweakedXv6.LinkCount

namespace TweakedXv6.Link

variable {m : Nat} {s t : State m} {p : Fin NPROC} {d : Fin m} {c : Pc m} {name : List UInt8} {a : Act m}

theorem iget_setDirLock (hup : s.dirLock d = none) : (iget s).setDirLock d none = iget s := by
  have hdl : (iget s).dirLock = s.dirLock := by
    unfold iget
    split <;> rfl
  unfold State.setDirLock
  rw [← hup, ← hdl, Function.update_eq_self]

theorem Inv.namei {j : Nat} (h : Inv s) (h0 : (s.pc p).refs = 0) (hup : s.dirLock d = none) (hn : s.names d name = some j)
    (hc : c.refs = 1 ∧ c.pending = 0 ∧ c.locked = false) (hdir : c.dir = none) : Inv ((iget s).setPc p c) := by
  obtain ⟨_, e, hget, he⟩ := names_some hn
  obtain ⟨hrefs, hpend, hlocked⟩ := hc
  have hp := h0 ▸ Pc.pending_le (s.pc p)
  have hfind := h.get (d := d) (by rw [h0, hrefs]) (by omega) (fun _ => entries_pos hget he) hup (.inl hdir)
    (by rintro rfl; cases hlocked) (by rintro k rfl; cases hlocked) (fun hl => by rw [hlocked] at hl; cases hl)
    (by rintro d' j rfl; cases hdir)
  rw [if_pos hdir, iget_setDirLock hup] at hfind
  exact hfind

theorem Inv.addLink {x : Int} (h : Inv s) (hp : (s.pc p).refs = 1) (hlock : s.lock = none)
    (hc : c.refs = 1 ∧ c.dir = none ∧ c ≠ .unlinkLower) (hfree : ∀ k, c ≠ .freeing k)
    (hx : (c.pending : Int) = (s.pc p).pending + x) : Inv ((addLink (ilock s) x).setPc p c) := by
  have hinv := h.relink hp (.inl hlock) hc hfree hx
  have hl : ((Link.addLink (ilock s) x).setPc p c).lock = none := by
    rw [← hlock]
    unfold ilock
    split <;> rfl
  generalize (Link.addLink (ilock s) x).setPc p c = u at hinv hl
  cases u
  cases hl
  exact hinv

theorem Inv.step (h : Inv s) (hlt : s.entries < 32768) (hs : step s p = some t) : Inv t := by
  unfold Link.step at hs
  cases hp : s.pc p with
  | user =>
    rw [hp] at hs
    cases hs
  | linkOld d name new =>
    simp only [hp, Option.ite_none_right_eq_some] at hs
    obtain ⟨hup, hs⟩ := hs
    cases hn : s.names d name with
    | none =>
      simp only [hn, Option.some.injEq] at hs
      exact hs ▸ h.move (by rw [hp]; rfl) rfl
    | some j =>
      simp only [hn, Option.some.injEq] at hs
      exact hs ▸ h.namei (by rw [hp]; rfl) hup hn ⟨rfl, rfl, rfl⟩ rfl
  | linkRaise new =>
    simp only [hp, Option.ite_none_right_eq_some] at hs
    obtain ⟨hl, hs⟩ := hs
    rcases new with _ | ⟨d, name⟩
    · cases hs
      exact h.addLink (by rw [hp]; rfl) hl ⟨rfl, rfl, nofun⟩ nofun (by rw [hp]; rfl)
    · cases hs
      exact h.addLink (by rw [hp]; rfl) hl ⟨rfl, rfl, nofun⟩ nofun (by rw [hp]; rfl)
  | linkNew d name =>
    simp only [hp, Option.ite_none_right_eq_some] at hs
    obtain ⟨hup, hs⟩ := hs
    cases hd : dirlookup (s.dir d) name with
    | none =>
      simp only [hd, Option.some.injEq] at hs
      exact hs ▸ h.enter hp hup
    | some j =>
      cases hn : s.names d name with
      | none =>
        simp only [hd, hn, Option.some.injEq] at hs
        exact hs ▸ h.stay (by rw [hp]; rfl) (by rw [hp]; rfl) (by rw [hp]; rfl) ⟨rfl, nofun⟩ nofun
      | some j =>
        simp only [hd, hn, Option.some.injEq] at hs
        exact hs ▸ h.found hp hup
  | linkBad =>
    simp only [hp] at hs
    obtain ⟨hl, rfl⟩ := some_of_guard hs
    exact h.addLink (by rw [hp]; rfl) hl ⟨rfl, rfl, nofun⟩ nofun (by rw [hp]; rfl)
  | unlinkDir d name =>
    simp only [hp, Option.ite_none_right_eq_some] at hs
    obtain ⟨hup, hs⟩ := hs
    split at hs
    next =>
      cases hs
      exact h.move (by rw [hp]; rfl) rfl
    next =>
      cases hn : s.names d name with
      | none =>
        simp only [hn, Option.some.injEq] at hs
        exact hs ▸ h.move (by rw [hp]; rfl) rfl
      | some j =>
        simp only [hn, Option.some.injEq] at hs
        obtain ⟨_, e, hget, he⟩ := names_some hn
        have hfind := h.get (p := p) (d := d) (c := .unlinkLock d j) (by rw [hp]; rfl) (by rw [hp]; rfl)
          (fun _ => entries_pos hget he) hup (.inr rfl) nofun nofun nofun fun d' j' hc => by
            cases hc
            simp [hget, he]
        exact hs ▸ hfind
  | unlinkLock d j =>
    simp only [hp, Option.ite_none_right_eq_some, Option.ite_none_left_eq_some] at hs
    obtain ⟨hl, _, hs⟩ := hs
    cases hs
    have hdir : (ilock s).dir = s.dir := by
      unfold ilock
      split <;> rfl
    rw [hdir]
    exact h.clear hp hl
  | unlinkLower =>
    simp only [hp, Option.some.injEq] at hs
    have hvalid := (h.ok p).valid (.inl (by rw [hp]; rfl))
    have hlock := (h.ok p).lock (.inl hp)
    have hrelink := h.relink (p := p) (c := .iput .done) (x := -1) (by rw [hp]; rfl) (.inr hlock) ⟨rfl, rfl, nofun⟩
      nofun (by rw [hp]; rfl)
    rw [ilock, if_pos hvalid] at hrelink
    exact hs ▸ hrelink
  | openDir d name ok =>
    simp only [hp, Option.ite_none_right_eq_some] at hs
    obtain ⟨hup, hs⟩ := hs
    cases hn : s.names d name with
    | none =>
      simp only [hn, Option.some.injEq] at hs
      exact hs ▸ h.move (by rw [hp]; rfl) rfl
    | some j =>
      simp only [hn, Option.some.injEq] at hs
      exact hs ▸ h.namei (by rw [hp]; rfl) hup hn ⟨rfl, rfl, rfl⟩ rfl
  | openLock ok =>
    simp only [hp, Option.ite_none_right_eq_some] at hs
    obtain ⟨hl, hs⟩ := hs
    have hopened : (ilock s).opened = s.opened := by
      unfold ilock
      split <;> rfl
    split at hs
    next =>
      have hinv := h.lockOpen (p := p) (by rw [hp]; exact ⟨rfl, rfl⟩) (.inl ⟨rfl, rfl⟩)
      rw [← hopened] at hinv
      cases hs
      exact hinv
    next =>
      have hinv := h.lockOpen (p := p) (by rw [hp]; exact ⟨rfl, rfl⟩) (.inr ⟨rfl, rfl⟩)
      rw [Function.update_eq_self, ← hopened] at hinv
      cases hs
      exact hinv
  | iput k =>
    simp only [hp] at hs
    split at hs
    next hcond =>
      simp only [Option.ite_none_right_eq_some, Option.some.injEq] at hs
      exact hs.2 ▸ h.lockFree hp hlt hs.1 hcond.1 hcond.2.2
    next hcond =>
      cases hs
      exact h.put hp hcond
  | freeing k =>
    simp only [hp, Option.some.injEq] at hs
    exact hs ▸ h.freed hp ⟨rfl, rfl, rfl, fun _ => rfl⟩

theorem Inv.act (h : Inv s) (hlt : s.entries < 32768) (hs : act s a = some t) : Inv t := by
  cases a with
  | link p d name new =>
    obtain ⟨hp, rfl⟩ := some_of_guard hs
    exact h.move (by rw [hp]; rfl) rfl
  | unlink p d name =>
    obtain ⟨hp, rfl⟩ := some_of_guard hs
    exact h.move (by rw [hp]; rfl) rfl
  | «open» p d name ok =>
    obtain ⟨hp, rfl⟩ := some_of_guard hs
    exact h.move (by rw [hp]; rfl) rfl
  | close p =>
    obtain ⟨hp, rfl⟩ := some_of_guard hs
    exact h.close hp.1 hp.2
  | step p => exact h.step hlt hs

theorem refs_user (h : ∀ p, s.pc p = .user) : s.pending = 0 ∧ s.refs = ∑ p, s.opened p := by
  have hpend : s.pending = 0 := Finset.sum_eq_zero fun p _ => by rw [h]; rfl
  have hrefs : ∑ p, (s.pc p).refs = 0 := Finset.sum_eq_zero fun p _ => by rw [h]; rfl
  refine ⟨hpend, ?_⟩
  rw [State.refs, hrefs, Nat.zero_add]

theorem Boot.inv (h : Boot s) : Inv s := by
  obtain ⟨hpend, hrefs⟩ := refs_user h.pc
  obtain ⟨hpos, hlt⟩ := h.entries
  refine ⟨h.ino, ?_, ?_, ?_, fun hf => absurd hf h.type.1, ?_, fun q => ?_⟩
  · rw [h.ref, hrefs, Finset.sum_eq_zero fun p _ => h.opened p]
    rfl
  · rw [h.nlink, hpend, Int.natCast_zero, Int.add_zero, short_eq hlt]
  · exact ⟨fun hf => absurd hf h.type.1, fun he => by omega⟩
  · intro _ hr
    rw [h.ref] at hr
    cases hr
  · refine Ok.idle (by rw [h.pc]; rfl) fun ho => ?_
    rw [h.opened] at ho
    cases ho

/-- In every interleaving the inode is free, and truncated, exactly when it has neither a name nor a
reference; when no call is in progress its link count is the number of its names. -/
theorem nlink_counts_names (h : (machine m).Reach (fun s _ => s.entries < 32768) s) :
    (s.disk.type = .free ↔ s.entries = 0 ∧ s.inode.ref = 0) ∧
      (s.disk.type = .free → s.disk.size = 0 ∧ ∀ i, s.disk.addrs i = 0) ∧
      ((∀ p, s.pc p = .user) → s.entries < 32768 →
        s.disk.nlink = s.entries ∧ s.inode.ref = (∑ p, s.opened p : Nat)) := by
  have hinv : Inv s :=
    h.invariant (fun _ hb => Boot.inv hb) fun s a t _ hs hlt ht => hs.act hlt ht
  refine ⟨hinv.free, hinv.trunc, fun huser hlt => ?_⟩
  obtain ⟨hpend, hrefs⟩ := refs_user huser
  refine ⟨?_, by rw [hinv.ref, hrefs]⟩
  rw [hinv.nlink, hpend, Int.natCast_zero, Int.add_zero, short_eq hlt]

def oneName : State 1 where
  ino := 2
  disk := { type := .file, nlink := 1 }
  inode := {}
  lock := none
  dir _ := [⟨2, [97]⟩]
  dirLock _ := none
  pc _ := .user
  opened _ := 0

def linkUnlink : List (Act 1) :=
  let p : Fin NPROC := ⟨0, zero_lt_NPROC⟩
  let q : Fin NPROC := ⟨1, one_lt_NPROC⟩
  [.link p 0 [97] (some (0, [98])), .step p, .step p, .unlink q 0 [97], .step q, .step q, .step q, .step q,
    .step p, .step p, .unlink p 0 [98], .step p, .step p, .step p, .step p, .step p]

theorem oneName_boot : Boot oneName :=
  ⟨by decide, by decide, by decide, by decide, rfl, rfl, fun _ => rfl, fun _ => rfl, fun _ => rfl⟩

theorem nlink_counts_names_linkUnlink : ∃ s, (machine 1).Reach (fun s _ => s.entries < 32768) s ∧
    (∀ p, s.pc p = .user) ∧ s.disk.nlink = 0 ∧ s.entries = 0 ∧ s.inode.ref = 0 ∧ s.disk.type = .free := by
  have hrun : (((machine 1).run oneName linkUnlink).any fun s =>
      (∀ p, s.pc p = .user) ∧ s.entries = 0 ∧ s.disk.type = .free) = true := by decide +kernel
  obtain ⟨s, hs, huser, hentries, hfree⟩ := exists_of_any hrun
  have hmeets : (machine 1).Meets (fun s _ => s.entries < 32768) oneName linkUnlink := by decide +kernel
  have hreach := Machine.Reach.of_run (.start oneName_boot) hmeets hs
  obtain ⟨hiff, _, hcount⟩ := nlink_counts_names hreach
  obtain ⟨hnlink, _⟩ := hcount huser (by omega)
  exact ⟨s, hreach, huser, by omega, hentries, (hiff.mp hfree).2, hfree⟩

end TweakedXv6.Link
