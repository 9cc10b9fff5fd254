import Mathlib.Logic.Function.Basic

namespace TweakedXv6

/-- A ring of `N` cells with free-running counters below `M`: the cells from `r` up to `w` hold the queue
`q`, oldest first. -/
structure Ring {α : Type} (N M : Nat) (data : Nat → α) (r w : Nat) (q : List α) : Prop where
  room : q.length ≤ N
  low : r < M
  high : w = (r + q.length) % M
  cell : ∀ j (h : j < q.length), data ((r + j) % N) = q[j]

namespace Ring

variable {α : Type} {N M r w : Nat} {data : Nat → α} {q : List α} {x : α}

theorem empty (hr : r < M) : Ring N M data r r [] where
  room := Nat.zero_le N
  low := hr
  high := by simp [Nat.mod_eq_of_lt hr]
  cell j h := absurd h (Nat.not_lt_zero j)

theorem distance (h : Ring N M data r w q) (hN : N < M) : (w + M - r) % M = q.length := by
  have hlow := h.low
  have hroom := h.room
  have hhigh := h.high
  rcases Nat.lt_or_ge (r + q.length) M with hlt | hge
  · rw [Nat.mod_eq_of_lt hlt] at hhigh
    rw [hhigh, show r + q.length + M - r = q.length + M by omega, Nat.add_mod_right,
      Nat.mod_eq_of_lt (by omega)]
  · rw [Nat.mod_eq_sub_mod hge, Nat.mod_eq_of_lt (by omega)] at hhigh
    rw [hhigh, show r + q.length - M + M - r = q.length by omega, Nat.mod_eq_of_lt (by omega)]

theorem eq_iff_empty (h : Ring N M data r w q) (hN : N < M) : r = w ↔ q = [] := by
  have hdist := h.distance hN
  have hlow := h.low
  constructor
  · rintro rfl
    rw [Nat.add_sub_cancel_left, Nat.mod_self] at hdist
    exact List.length_eq_zero_iff.mp hdist.symm
  · rintro rfl
    rw [h.high, List.length_nil, Nat.add_zero, Nat.mod_eq_of_lt hlow]

theorem eq_iff_full (h : Ring N M data r w q) (hN : N < M) : w = (r + N) % M ↔ q.length = N := by
  have hdist := h.distance hN
  have hlow := h.low
  constructor
  · intro hw
    rcases Nat.lt_or_ge (r + N) M with hlt | hge
    · rw [Nat.mod_eq_of_lt hlt] at hw
      rw [hw, show r + N + M - r = N + M by omega, Nat.add_mod_right, Nat.mod_eq_of_lt hN] at hdist
      exact hdist.symm
    · rw [Nat.mod_eq_sub_mod hge, Nat.mod_eq_of_lt (by omega)] at hw
      rw [hw, show r + N - M + M - r = N by omega, Nat.mod_eq_of_lt hN] at hdist
      exact hdist.symm
  · intro hq
    rw [h.high, hq]

theorem mod_cell (hdvd : N ∣ M) (i : Nat) : i % M % N = i % N := Nat.mod_mod_of_dvd i hdvd

theorem cell_ne {i j : Nat} (hij : i < j) (hj : j < N) : (r + i) % N ≠ (r + j) % N := by
  intro he
  have hz := Nat.sub_mod_eq_zero_of_mod_eq he.symm
  rw [show r + j - (r + i) = j - i by omega, Nat.mod_eq_of_lt (by omega)] at hz
  omega

section Store

variable (h : Ring N M data r w q) (hdvd : N ∣ M) (hroom : q.length < N)

include h hdvd hroom

theorem store (x : α) : Ring N M (Function.update data (w % N) x) r w q where
  room := h.room
  low := h.low
  high := h.high
  cell j hj := by
    have hcell : w % N = (r + q.length) % N := by rw [h.high, mod_cell hdvd]
    rw [hcell, Function.update_of_ne (cell_ne hj hroom)]
    exact h.cell j hj

theorem advance (hx : data (w % N) = x) : Ring N M data r ((w + 1) % M) (q ++ [x]) := by
  have hcell : w % N = (r + q.length) % N := by rw [h.high, mod_cell hdvd]
  constructor
  case room =>
    rw [List.length_append, List.length_singleton]
    exact hroom
  case low => exact h.low
  case high =>
    rw [h.high, List.length_append, List.length_singleton, Nat.mod_add_mod, Nat.add_assoc]
  case cell =>
    intro j hj
    rcases Nat.lt_or_ge j q.length with hlt | hge
    · rw [List.getElem_append_left hlt]
      exact h.cell j hlt
    · have hlen : j = q.length := by
        rw [List.length_append, List.length_singleton] at hj
        omega
      subst hlen
      rw [← hcell, hx, List.getElem_concat_length rfl]

theorem push : Ring N M (Function.update data (w % N) x) r ((w + 1) % M) (q ++ [x]) :=
  (h.store hdvd hroom x).advance hdvd hroom (Function.update_self ..)

end Store

theorem unpush (h : Ring N M data r w (q ++ [x])) : Ring N M data r ((w + (M - 1)) % M) q := by
  have hroom := h.room
  have hlow := h.low
  rw [List.length_append, List.length_singleton] at hroom
  refine ⟨by omega, hlow, ?_, fun j hj => ?_⟩
  · rw [h.high, List.length_append, List.length_singleton, Nat.mod_add_mod,
      show r + (q.length + 1) + (M - 1) = r + q.length + M by omega, Nat.add_mod_right]
  · have hget := h.cell j (by rw [List.length_append, List.length_singleton]; omega)
    rw [hget, List.getElem_append_left hj]

theorem pop (h : Ring N M data r w (x :: q)) (hdvd : N ∣ M) : data (r % N) = x ∧ Ring N M data ((r + 1) % M) w q := by
  have hM : 0 < M := Nat.lt_of_le_of_lt (Nat.zero_le r) h.low
  refine ⟨?_, ?_, ?_, ?_, ?_⟩
  · exact h.cell 0 (Nat.succ_pos _)
  · have := h.room
    rw [List.length_cons] at this
    omega
  · exact Nat.mod_lt _ hM
  · rw [h.high, List.length_cons, Nat.mod_add_mod]
    congr 1
    omega
  · intro j hj
    have hget := h.cell (j + 1) (Nat.succ_lt_succ hj)
    rw [List.getElem_cons_succ, show r + (j + 1) = r + 1 + j by omega, Nat.add_mod] at hget
    rw [Nat.add_mod, mod_cell hdvd]
    exact hget

end Ring

end TweakedXv6
