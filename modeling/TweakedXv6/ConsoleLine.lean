import TweakedXv6.ConsoleModel
import TweakedXv6.Ring

namespace TweakedXv6.Tty

open Sleep (Console INPUT_BUF)

/-- The buffer holds the committed bytes `pending` and behind them the line `editing`; a full buffer has
no such line. -/
structure Held (c : Console) (pending editing : List UInt8) : Prop where
  ring : Ring INPUT_BUF 4294967296 c.buf c.r c.e (pending ++ editing)
  w : c.w = uint (c.r + pending.length)
  full : (pending ++ editing).length = INPUT_BUF → editing = []

variable {c : Console} {pending editing q : List UInt8} {x ch : UInt8} {a m n : Nat}

theorem INPUT_BUF_lt : INPUT_BUF < 4294967296 := by decide

theorem INPUT_BUF_dvd : INPUT_BUF ∣ 4294967296 := by decide

theorem usub_uint (ha : a < 4294967296) (hm : m < 4294967296) : usub (uint (a + m)) a = m := by
  unfold usub uint
  omega

theorem bytes_ring (h : Ring INPUT_BUF 4294967296 c.buf c.r c.e q) (hm : a + m ≤ q.length) :
    bytes c (uint (c.r + a)) (uint (c.r + (a + m))) = (q.drop a).take m := by
  have hroom := h.room
  have hlt : uint (c.r + a) < 4294967296 := Nat.mod_lt _ (by decide)
  have hdist : usub (uint (c.r + (a + m))) (uint (c.r + a)) = m := by
    have hbuf := INPUT_BUF_lt
    have hsum : uint (c.r + (a + m)) = uint (uint (c.r + a) + m) := by
      unfold uint
      omega
    rw [hsum]
    exact usub_uint hlt (by omega)
  unfold bytes
  rw [hdist]
  refine List.ext_getElem ?_ fun i hi _ => ?_
  · simp only [List.length_map, List.length_range, List.length_take, List.length_drop]
    omega
  · have hi : i < m := by simpa using hi
    have hcell := h.cell (a + i) (by omega)
    simp only [List.getElem_map, List.getElem_range, List.getElem_take, List.getElem_drop]
    rw [← hcell]
    congr 1
    have hmod : uint (c.r + a) % INPUT_BUF = (c.r + a) % INPUT_BUF := Ring.mod_cell INPUT_BUF_dvd _
    rw [Nat.add_mod, hmod, ← Nat.add_mod, Nat.add_assoc]

theorem Held.unread (h : Held c pending editing) : bytes c c.r c.w = pending := by
  have hlen := bytes_ring (a := 0) (m := pending.length) h.ring (by simp)
  rw [Nat.zero_add, Nat.add_zero, ← h.w, List.drop_zero, List.take_left] at hlen
  rwa [show uint c.r = c.r from Nat.mod_eq_of_lt h.ring.low] at hlen

theorem Held.dist_w (h : Held c pending editing) : usub c.w c.r = pending.length := by
  have hroom := h.ring.room
  have hbuf := INPUT_BUF_lt
  rw [List.length_append] at hroom
  rw [h.w]
  exact usub_uint h.ring.low (by omega)

theorem Held.dist_e (h : Held c pending editing) : usub c.e c.r = (pending ++ editing).length := by
  have := h.ring.distance INPUT_BUF_lt
  exact this

theorem Held.e_eq_w_iff (h : Held c pending editing) : c.e = c.w ↔ editing = [] := by
  have he := h.dist_e
  have hw := h.dist_w
  rw [List.length_append] at he
  constructor
  · intro heq
    rw [heq] at he
    exact List.length_eq_zero_iff.mp (by omega)
  · rintro rfl
    have hhigh := h.ring.high
    rw [List.append_nil] at hhigh
    rw [hhigh, h.w]
    rfl

theorem Held.erase (h : Held c pending (editing ++ [x])) :
    Held { c with e := uint (c.e + 4294967295) } pending editing := by
  have hring := h.ring
  rw [← List.append_assoc] at hring
  refine ⟨hring.unpush, h.w, fun hfull => ?_⟩
  have hroom := hring.room
  rw [List.length_append, List.length_singleton] at hroom
  omega

theorem Held.killLine (h : Held c pending editing) (n : Nat) :
    ∃ editing', Held (c.killLine n) pending editing' ∧ (c.killLine n).r = c.r ∧ (c.killLine n).w = c.w := by
  induction n generalizing c editing with
  | zero => exact ⟨editing, h, rfl, rfl⟩
  | succ n ih =>
    unfold Console.killLine
    split
    next hcond =>
      have hne : editing ≠ [] := fun he => hcond.1 (h.e_eq_w_iff.mpr he)
      obtain ⟨init, x, rfl⟩ : ∃ init x, editing = init ++ [x] := ⟨_, _, (List.dropLast_concat_getLast hne).symm⟩
      exact ih h.erase
    next => exact ⟨editing, h, rfl, rfl⟩

theorem Held.store (h : Held c pending editing) (hroom : usub c.e c.r < INPUT_BUF) (x : UInt8) :
    Ring INPUT_BUF 4294967296 (Function.update c.buf (c.e % INPUT_BUF) x) c.r (uint (c.e + 1))
      (pending ++ (editing ++ [x])) := by
  rw [h.dist_e] at hroom
  rw [← List.append_assoc]
  exact h.ring.push INPUT_BUF_dvd hroom

theorem Held.intr (h : Held c pending editing) (ch : UInt8) :
    ∃ added editing', Held (intr c ch) (pending ++ added) editing' ∧ (Tty.intr c ch).r = c.r := by
  unfold Tty.intr
  split
  · exact ⟨[], editing, by rwa [List.append_nil], rfl⟩
  split
  · obtain ⟨editing', hheld, hr, _⟩ := h.killLine (usub c.e c.w)
    exact ⟨[], editing', by rwa [List.append_nil], hr⟩
  split
  · split
    next hne =>
      have hne : editing ≠ [] := fun he => hne (h.e_eq_w_iff.mpr he)
      obtain ⟨init, x, rfl⟩ : ∃ init x, editing = init ++ [x] := ⟨_, _, (List.dropLast_concat_getLast hne).symm⟩
      exact ⟨[], init, by rw [List.append_nil]; exact h.erase, rfl⟩
    next => exact ⟨[], editing, by rwa [List.append_nil], rfl⟩
  split
  · next hroom =>
    generalize (if ch = 13 then 10 else ch) = x
    have hstore := h.store hroom.2 x
    dsimp only
    split
    next =>
      -- the whole line is committed
      refine ⟨editing ++ [x], [], ⟨?_, ?_, fun _ => rfl⟩, rfl⟩
      · rwa [List.append_nil]
      · exact hstore.high
    next hcommit =>
      refine ⟨[], editing ++ [x], ⟨?_, ?_, fun hfull => ?_⟩, rfl⟩
      · rwa [List.append_nil]
      · rw [List.append_nil]
        exact h.w
      · -- a full buffer would have been committed
        rw [List.append_nil] at hfull
        have := (hstore.eq_iff_full INPUT_BUF_lt).mpr hfull
        exact absurd (.inr (.inr this)) hcommit
  · exact ⟨[], editing, by rwa [List.append_nil], rfl⟩

end TweakedXv6.Tty
