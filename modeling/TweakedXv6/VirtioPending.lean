import Mathlib.Data.List.Perm.Subperm
import TweakedXv6.Ring
import TweakedXv6.VirtioDesc

namespace TweakedXv6.Virtio

open Function (update update_of_ne update_self)

/-- The requests that are published, `S p h b` for a call `p` with the head `h` and the buffer `b`: those
with `b->disk` set are in the avail ring, with the device or in the used ring, each once. -/
structure Pending (d : Disk) (S : Nat → Nat → Nat → Prop) (lastAvail : Nat) (taken : List Nat)
    (owner : Nat → Option Nat) (done : Nat → Bool) (A U : List Nat) : Prop where
  avail : Ring NUM 65536 d.availRing lastAvail d.availIdx A
  used : Ring NUM 65536 d.usedRing d.seen d.usedIdx U
  nodup : (A ++ taken ++ U).Nodup
  heads : ∀ h, h ∈ A ++ taken ++ U ↔ ∃ p b, S p h b ∧ d.bufDisk b = true
  status : ∀ h ∈ U, d.status h = 0
  owner : ∀ p h b, S p h b → owner h = some p
  done : ∀ p h b, S p h b → h ∈ U ∨ d.bufDisk b = false → done p = true

theorem NUM_dvd : NUM ∣ 65536 := by decide

theorem NUM_lt : NUM < 65536 := by decide

theorem length_lt_of_nodup {l : List Nat} {x n : Nat} (hnd : (x :: l).Nodup) (hlt : ∀ i ∈ x :: l, i < n) :
    l.length < n := by
  have hsub : x :: l ⊆ List.range n := fun i hi => List.mem_range.mpr (hlt i hi)
  have hlen := (hnd.subperm hsub).length_le
  rw [List.length_cons, List.length_range] at hlen
  exact hlen

namespace Pending

variable {d : Disk} {S S' : Nat → Nat → Nat → Prop} {lastAvail p h b : Nat} {taken A U : List Nat}
  {owner : Nat → Option Nat} {done : Nat → Bool} {c : Call}

section Sent

variable (hp : Pending d S lastAvail taken owner done A U)

include hp

theorem mem (hS : S p h b) (hb : d.bufDisk b = true) : h ∈ A ++ taken ++ U :=
  (hp.heads h).mpr ⟨p, b, hS, hb⟩

theorem not_mem (hnew : ∀ p b, ¬ S p h b) : h ∉ A ++ taken ++ U := by
  intro hmem
  obtain ⟨p, b, hS, _⟩ := (hp.heads h).mp hmem
  exact hnew p b hS

theorem room_avail (hlt : ∀ p h b, S p h b → h < NUM) (hnew : ∀ p b, ¬ S p h b) (hh : h < NUM) : A.length < NUM := by
  have hmem := hp.not_mem hnew
  rw [List.append_assoc, List.mem_append, not_or] at hmem
  have hnd := hp.nodup
  rw [List.append_assoc] at hnd
  refine length_lt_of_nodup (List.nodup_cons.mpr ⟨hmem.1, (List.nodup_append.mp hnd).1⟩) fun i hi => ?_
  rcases List.mem_cons.mp hi with rfl | hi
  · exact hh
  · obtain ⟨p, b, hS, _⟩ := (hp.heads i).mp (List.mem_append_left _ (List.mem_append_left _ hi))
    exact hlt p i b hS

theorem format (blockno : Nat) (hroom : A.length < NUM) (hnew : ∀ p b, ¬ S p c.i0 b) (hbuf : ∀ p h, ¬ S p h c.b) :
    Pending (Virtio.format d blockno c) S lastAvail taken owner done A U := by
  have hb : ∀ p h b, S p h b → (Virtio.format d blockno c).bufDisk b = d.bufDisk b := by
    intro p h b hS
    have hne : b ≠ c.b := fun he => hbuf p h (he ▸ hS)
    exact update_of_ne hne ..
  constructor
  case avail => exact hp.avail.store NUM_dvd hroom c.i0
  case used => exact hp.used
  case nodup => exact hp.nodup
  case heads =>
    intro h
    rw [hp.heads h]
    constructor
    · intro ⟨p, b, hS, hd⟩
      exact ⟨p, b, hS, (hb p h b hS).trans hd⟩
    · intro ⟨p, b, hS, hd⟩
      exact ⟨p, b, hS, (hb p h b hS).symm.trans hd⟩
  case status =>
    intro h hU
    have hne : h ≠ c.i0 := by
      intro he
      exact hp.not_mem hnew (he ▸ List.mem_append_right _ hU)
    exact (update_of_ne hne ..).trans (hp.status h hU)
  case owner => exact hp.owner
  case done =>
    intro p h b hS hdone
    rw [hb p h b hS] at hdone
    exact hp.done p h b hS hdone

theorem publish (hroom : A.length < NUM) (hnew : ∀ p b, ¬ S p h b) (hself : ∀ h b, ¬ S p h b)
    (hb : d.bufDisk b = true) (hentry : d.availRing (d.availIdx % NUM) = h)
    (hS' : ∀ q i a, S' q i a ↔ (q = p ∧ i = h ∧ a = b) ∨ S q i a) :
    Pending { d with availIdx := (d.availIdx + 1) % 65536 } S' lastAvail taken
      (update owner h (some p)) (update done p false) (A ++ [h]) U := by
  have hmem := hp.not_mem hnew
  have hperm : (A ++ [h] ++ taken ++ U).Perm (h :: (A ++ taken ++ U)) := by
    rw [List.append_assoc, List.append_assoc, List.append_assoc A taken U]
    exact List.perm_middle
  constructor
  case avail => exact hp.avail.advance NUM_dvd hroom hentry
  case used => exact hp.used
  case nodup => exact hperm.nodup_iff.mpr (List.nodup_cons.mpr ⟨hmem, hp.nodup⟩)
  case heads =>
    intro i
    rw [hperm.mem_iff, List.mem_cons, hp.heads i]
    constructor
    · rintro (rfl | ⟨q, a, hS, hd⟩)
      · exact ⟨p, b, (hS' p i b).mpr (.inl ⟨rfl, rfl, rfl⟩), hb⟩
      · exact ⟨q, a, (hS' q i a).mpr (.inr hS), hd⟩
    · rintro ⟨q, a, hS, hd⟩
      rcases (hS' q i a).mp hS with ⟨_, rfl, _⟩ | hS
      · exact .inl rfl
      · exact .inr ⟨q, a, hS, hd⟩
  case status => exact hp.status
  case owner =>
    intro q i a hS
    rcases (hS' q i a).mp hS with ⟨rfl, rfl, _⟩ | hS
    · exact update_self ..
    · have hne : i ≠ h := fun he => hnew q a (he ▸ hS)
      rw [update_of_ne hne]
      exact hp.owner q i a hS
  case done =>
    intro q i a hS hdone
    rcases (hS' q i a).mp hS with ⟨_, rfl, rfl⟩ | hS
    · rcases hdone with hU | hd
      · exact absurd (List.mem_append_right _ hU) hmem
      · rw [hb] at hd
        cases hd
    · have hne : q ≠ p := fun he => hself i a (he ▸ hS)
      rw [update_of_ne hne]
      exact hp.done q i a hS hdone

theorem drop (hb : ∀ h b, S p h b → d.bufDisk b = false) (hS' : ∀ q i a, S' q i a ↔ S q i a ∧ q ≠ p) :
    Pending d S' lastAvail taken owner done A U where
  avail := hp.avail
  used := hp.used
  nodup := hp.nodup
  heads i := by
    rw [hp.heads i]
    constructor
    · rintro ⟨q, a, hS, hd⟩
      have hne : q ≠ p := by
        rintro rfl
        rw [hb i a hS] at hd
        cases hd
      exact ⟨q, a, (hS' q i a).mpr ⟨hS, hne⟩, hd⟩
    · rintro ⟨q, a, hS, hd⟩
      exact ⟨q, a, ((hS' q i a).mp hS).1, hd⟩
  status := hp.status
  owner q i a hS := hp.owner q i a ((hS' q i a).mp hS).1
  done q i a hS := hp.done q i a ((hS' q i a).mp hS).1

end Sent

theorem take (hp : Pending d S lastAvail taken owner done (h :: A) U) :
    Pending d S ((lastAvail + 1) % 65536) (h :: taken) owner done A U := by
  have hperm : (A ++ h :: taken ++ U).Perm (h :: A ++ taken ++ U) :=
    List.perm_middle.append_right U
  constructor
  case avail => exact (hp.avail.pop NUM_dvd).2
  case used => exact hp.used
  case nodup => exact hperm.nodup_iff.mpr hp.nodup
  case heads => exact fun i => hperm.mem_iff.trans (hp.heads i)
  case status => exact hp.status
  case owner => exact hp.owner
  case done => exact hp.done

theorem complete (hp : Pending d S lastAvail taken owner done A U) (hlt : ∀ p h b, S p h b → h < NUM)
    (hmem : h ∈ taken) (howner : owner h = some p) : Pending { d with
        status := update d.status h 0
        usedRing := update d.usedRing (d.usedIdx % NUM) h
        usedIdx := (d.usedIdx + 1) % 65536 }
      S lastAvail (taken.erase h) owner (update done p true) A (U ++ [h]) := by
  have hperm : (A ++ taken.erase h ++ (U ++ [h])).Perm (A ++ taken ++ U) := by
    rw [List.append_assoc, List.append_assoc A taken U]
    refine List.Perm.append_left A ?_
    rw [← List.append_assoc]
    refine List.perm_append_comm.trans ?_
    exact (List.perm_cons_erase hmem).symm.append_right U
  have hnd : (h :: U).Nodup := by
    have hsub : (h :: U).Sublist (A ++ taken ++ U) :=
      ((List.singleton_sublist.mpr hmem).append (.refl U)).trans (by
        rw [List.append_assoc]
        exact List.sublist_append_right A (taken ++ U))
    exact hp.nodup.sublist hsub
  have hroom : U.length < NUM := by
    refine length_lt_of_nodup hnd fun i hi => ?_
    have hi' : i ∈ A ++ taken ++ U := by
      rcases List.mem_cons.mp hi with rfl | hi
      · exact List.mem_append_left _ (List.mem_append_right _ hmem)
      · exact List.mem_append_right _ hi
    obtain ⟨q, a, hS, _⟩ := (hp.heads i).mp hi'
    exact hlt q i a hS
  constructor
  case avail => exact hp.avail
  case used => exact hp.used.push NUM_dvd hroom
  case nodup => exact hperm.nodup_iff.mpr hp.nodup
  case heads => exact fun i => hperm.mem_iff.trans (hp.heads i)
  case status =>
    intro i hi
    by_cases he : i = h
    · rw [he]
      exact update_self ..
    · have hU : i ∈ U := (List.mem_append.mp hi).resolve_right fun hs => he (List.mem_singleton.mp hs)
      exact (update_of_ne he ..).trans (hp.status i hU)
  case owner => exact hp.owner
  case done =>
    intro q i a hS hdone
    by_cases hq : q = p
    · rw [hq, update_self]
    · rw [update_of_ne hq]
      refine hp.done q i a hS (hdone.imp_left fun hi => ?_)
      rcases List.mem_append.mp hi with hU | hs
      · exact hU
      · rw [List.mem_singleton.mp hs] at hS
        rw [hp.owner q h a hS] at howner
        exact absurd (Option.some.inj howner) hq

theorem clear (hp : Pending d S lastAvail taken owner done A (h :: U)) (hone : ∀ q i a, S q i a → (i = h ↔ a = b)) :
    Pending { d with
        bufDisk := update d.bufDisk b false
        seen := (d.seen + 1) % 65536 }
      S lastAvail taken owner done A U := by
  have hperm : (A ++ taken ++ h :: U).Perm (h :: (A ++ taken ++ U)) := List.perm_middle
  obtain ⟨hmem, hnd⟩ := List.nodup_cons.mp (hperm.nodup_iff.mp hp.nodup)
  constructor
  case avail => exact hp.avail
  case used => exact (hp.used.pop NUM_dvd).2
  case nodup => exact hnd
  case heads =>
    intro i
    dsimp only
    constructor
    · intro hi
      obtain ⟨q, a, hS', hd⟩ := (hp.heads i).mp (hperm.mem_iff.mpr (List.mem_cons_of_mem h hi))
      have hne : a ≠ b := fun he => hmem ((hone q i a hS').mpr he ▸ hi)
      exact ⟨q, a, hS', (update_of_ne hne ..).trans hd⟩
    · rintro ⟨q, a, hS', hd⟩
      have hne : a ≠ b := by
        rintro rfl
        rw [update_self] at hd
        cases hd
      rw [update_of_ne hne] at hd
      have hi := hperm.mem_iff.mp (hp.mem hS' hd)
      exact (List.mem_cons.mp hi).resolve_left fun he => hne ((hone q i a hS').mp he)
  case status => exact fun i hi => hp.status i (List.mem_cons_of_mem h hi)
  case owner => exact hp.owner
  case done =>
    intro q i a hS' hdone
    by_cases hab : a = b
    · exact hp.done q i a hS' (.inl ((hone q i a hS').mpr hab ▸ List.mem_cons_self))
    · refine hp.done q i a hS' (hdone.imp (List.mem_cons_of_mem h) fun hd => ?_)
      exact (update_of_ne hab ..).symm.trans hd

end Pending

end TweakedXv6.Virtio
