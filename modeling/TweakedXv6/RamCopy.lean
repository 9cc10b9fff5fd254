import TweakedXv6.RamModel
import TweakedXv6.VmLookup

namespace TweakedXv6.Phys

open Prog Radix
open Vm (PGSIZE MAXVA pgrounddown px path px_path isPath_path)

def format : Format Nat := ⟨fun pte => has pte PTE_V, pteToPage⟩

def IsTable (r : Ram) (root q : Nat) : Prop := Reaches format r.table 512 2 root q

def userPage (r : Ram) (root va : Nat) : Option Nat :=
  if va < MAXVA then
    (find format r.table root (path (va / 4096)) (va / 4096 % 512)).bind fun pte =>
      if has pte PTE_U then some (pteToPage pte) else none
  else none

def Accessible (r : Ram) (root va : Nat) : Prop := (userPage r root va).isSome = true

def translate (r : Ram) (root va : Nat) : Nat := (userPage r root va).getD 0 * 4096 + va % 4096

def userByte (r : Ram) (root va : Nat) : UInt8 := r.byte (translate r root va)

def Ram.transfer (r : Ram) (addr : Nat → Nat) (val : Nat → UInt8) (n : Nat) : Ram :=
  { r with byte := r.byte.transfer addr val n }

structure UserTable (r : Ram) (root : Nat) : Prop where
  apart : ∀ va q, userPage r root va = some q → ¬ IsTable r root q
  nonnull : ∀ va q, userPage r root va = some q → q ≠ 0

def Outside (r : Ram) (root a n : Nat) : Prop := ∀ i < n, ∀ va, userPage r root va ≠ some ((a + i) / 4096)

def Buffer (r : Ram) (root a n : Nat) : Prop := Outside r root a n ∧ ∀ i < n, ¬ IsTable r root ((a + i) / 4096)

variable {r t : Ram} {root va a b n q i k len fuel src dst dstva srcva : Nat} {addr : Nat → Nat} {val : Nat → UInt8}

theorem table_congr (h : ∀ o < 4096, t.byte (q * 4096 + o) = r.byte (q * 4096 + o)) : t.table q = r.table q := by
  funext i
  unfold Ram.table
  split
  next hi =>
    refine Bytes.dword_congr fun k hk => ?_
    rw [show 8 * (512 * q + i) + k = q * 4096 + (8 * i + k) by omega]
    exact h _ (by omega)
  next => rfl

theorem walkStep_next (hi : i < 512) : walkStep q i false r = .ok (next format (r.table q i), r) := by
  unfold walkStep readPte
  rw [run_bind run_read, next, Ram.table, if_pos hi]
  cases hv : has (r.pte q i) PTE_V with
  | true => simp [format, hv]
  | false => simp [format, hv]

theorem walk_descend (hva : va < MAXVA) : walk root va false r =
    .ok ((descend format r.table root (path (va / 4096))).map fun q => (q, va / 4096 % 512), r) := by
  obtain ⟨hpath, hidx, _⟩ := px_path hva
  unfold walk
  rw [if_neg (Nat.not_le.mpr hva), run_bind (walkStep_next (px_lt 2 va)), hpath, descend]
  cases next format (r.table root (px 2 va)) with
  | none => rfl
  | some t1 =>
    dsimp only [Option.bind_some]
    rw [run_bind (walkStep_next (px_lt 1 va)), descend, hidx]
    cases next format (r.table t1 (px 1 va)) <;> rfl

theorem walkaddr_run : walkaddr root va r = .ok (((userPage r root va).map (· * 4096)).getD 0, r) := by
  unfold walkaddr userPage
  by_cases hva : va < MAXVA
  · have hi : va / 4096 % 512 < 512 := Nat.mod_lt _ (by decide)
    rw [if_neg (Nat.not_le.mpr hva), run_bind (walk_descend hva), if_pos hva, find]
    cases descend format r.table root (path (va / 4096)) with
    | none => rfl
    | some q =>
      dsimp only [Option.map_some, Option.bind_some]
      rw [readPte, run_bind run_read, Ram.table, if_pos hi]
      cases hv : has (r.pte q (va / 4096 % 512)) PTE_V with
      | false => simp [format, hv]
      | true =>
        cases hu : has (r.pte q (va / 4096 % 512)) PTE_U with
        | false => simp [format, hv, hu]
        | true => simp [format, hv, hu, PGSIZE]
  · rw [if_pos (Nat.not_lt.mp hva), if_neg hva]
    rfl

theorem userPage_lt (h : userPage r root va = some q) : va < MAXVA := by
  unfold userPage at h
  split at h
  next hva => exact hva
  next => cases h

theorem userPage_page (h : va / 4096 = b / 4096) : userPage r root va = userPage r root b := by
  have hiff : va < MAXVA ↔ b < MAXVA := by
    unfold MAXVA
    omega
  simp only [userPage, h, hiff]

theorem userPage_frame (h : ∀ q, IsTable r root q → t.table q = r.table q) :
    userPage t root = userPage r root ∧ ∀ q, IsTable t root q ↔ IsTable r root q := by
  constructor
  · funext va
    unfold userPage
    rw [find_frame isPath_path h]
  · intro q
    constructor
    · rintro ⟨p, hp, hq⟩
      exact ⟨p, hp, by rwa [descend_frame hp h] at hq⟩
    · rintro ⟨p, hp, hq⟩
      exact ⟨p, hp, by rwa [descend_frame hp h]⟩

theorem userPage_transfer (val : Nat → UInt8) (h : ∀ i < n, ¬ IsTable r root (addr i / 4096)) :
    userPage (r.transfer addr val n) root = userPage r root ∧
      ∀ q, IsTable (r.transfer addr val n) root q ↔ IsTable r root q := by
  refine userPage_frame fun q hq => table_congr fun o ho => Bytes.transfer_out fun i hi heq => ?_
  refine h i hi ?_
  rwa [heq, show (q * 4096 + o) / 4096 = q by omega]

theorem transfer_add {addr' : Nat → Nat} {val' : Nat → UInt8} (ha : ∀ i < k, addr' i = addr (n + i))
    (hv : ∀ i < k, val' i = val (n + i)) :
    (r.transfer addr val n).transfer addr' val' k = r.transfer addr val (n + k) := by
  unfold Ram.transfer
  rw [Bytes.transfer_add, Bytes.transfer_congr ha hv]

theorem UserTable.transfer (hT : UserTable r root) (h : ∀ i < n, ¬ IsTable r root (addr i / 4096)) :
    UserTable (r.transfer addr val n) root := by
  obtain ⟨hmap, htable⟩ := userPage_transfer val h
  refine ⟨fun va q hq => ?_, fun va q hq => ?_⟩
  · rw [hmap] at hq
    rw [htable]
    exact hT.apart va q hq
  · rw [hmap] at hq
    exact hT.nonnull va q hq

structure Reached (r : Ram) (root va len k : Nat) : Prop where
  le : k ≤ len
  before : ∀ i < k, Accessible r root (va + i)
  stop : k < len → ¬ Accessible r root (va + k)

theorem Reached.congr (h : userPage t root = userPage r root) (hk : Reached t root va len k) :
    Reached r root va len k := by
  obtain ⟨hle, hbefore, hstop⟩ := hk
  unfold Accessible at hbefore hstop
  rw [h] at hbefore hstop
  exact ⟨hle, hbefore, hstop⟩

theorem Reached.zero : Reached r root va 0 0 :=
  ⟨Nat.le_refl 0, fun i hi => absurd hi (Nat.not_lt_zero i), fun h => absurd h (Nat.lt_irrefl 0)⟩

theorem Reached.none (h : userPage r root va = none) : Reached r root va len 0 := by
  refine ⟨Nat.zero_le len, fun i hi => absurd hi (Nat.not_lt_zero i), fun _ hacc => ?_⟩
  rw [Nat.add_zero, Accessible, h] at hacc
  cases hacc

theorem forall_lt_add {P : Nat → Prop} (h : ∀ i < n, P (va + i)) (h' : ∀ i < k, P (va + n + i)) :
    ∀ i < n + k, P (va + i) := by
  intro i hi
  rcases Nat.lt_or_ge i n with hin | hin
  · exact h i hin
  · have hP := h' (i - n) (by omega)
    rwa [show va + n + (i - n) = va + i by omega] at hP

theorem accessible_page (hmap : userPage r root va = some q) (hn : va % 4096 + n ≤ 4096) :
    ∀ i < n, Accessible r root (va + i) := by
  intro i hi
  rw [Accessible, userPage_page (show (va + i) / 4096 = va / 4096 by omega), hmap]
  rfl

theorem Reached.page (hmap : userPage r root va = some q) (hn : va % 4096 + n ≤ 4096)
    (h : Reached r root (va + n) (len - n) k) (hlen : n ≤ len) : Reached r root va len (n + k) := by
  have hle := h.le
  refine ⟨by omega, forall_lt_add (accessible_page hmap hn) h.before, fun hlt => ?_⟩
  have hstop := h.stop (by omega)
  rwa [Nat.add_assoc] at hstop

def chunk (va len : Nat) : Nat := if len < PGSIZE - va % 4096 then len else PGSIZE - va % 4096

theorem chunk_spec (va : Nat) (hlen : 0 < len) : 0 < chunk va len ∧ chunk va len ≤ len ∧
    va % 4096 + chunk va len ≤ 4096 ∧ (chunk va len < len → pgrounddown va + 4096 = va + chunk va len) := by
  unfold chunk PGSIZE pgrounddown
  split <;> omega

theorem translate_page (hmap : userPage r root va = some q) (hi : va % 4096 + i < 4096) :
    translate r root (va + i) = q * 4096 + (va % 4096 + i) := by
  have hpage : userPage r root (va + i) = userPage r root va := userPage_page (by omega)
  rw [translate, hpage, hmap, Option.getD_some]
  omega

theorem userByte_page (hmap : userPage r root va = some q) (hi : va % 4096 + i < 4096) :
    userByte r root (va + i) = r.byte (q * 4096 + va % 4096 + i) := by
  rw [userByte, translate_page hmap hi, Nat.add_assoc]

theorem sub_pgrounddown : va - pgrounddown va = va % 4096 := by
  unfold pgrounddown
  omega

theorem walkaddr_pgrounddown : walkaddr root (pgrounddown va) r =
    .ok (((userPage r root va).map (· * 4096)).getD 0, r) := by
  rw [walkaddr_run, userPage_page (show pgrounddown va / 4096 = va / 4096 by unfold pgrounddown; omega)]

theorem nextPage_eq (hva : va < MAXVA) : nextPage (pgrounddown va) = pgrounddown va + 4096 := by
  unfold MAXVA at hva
  unfold nextPage pgrounddown PGSIZE
  omega

theorem copyoutLoop_done (h : 0 < fuel) : copyoutLoop root fuel dstva src 0 r = .ok (true, r) := by
  obtain ⟨fuel, rfl⟩ := Nat.exists_eq_succ_of_ne_zero (Nat.ne_of_gt h)
  rfl

theorem copyoutLoop_fault (hlen : 0 < len) (hmap : userPage r root dstva = none) :
    copyoutLoop root (fuel + 1) dstva src len r = .ok (false, r) := by
  unfold copyoutLoop
  rw [if_pos hlen]
  dsimp only
  rw [run_bind walkaddr_pgrounddown, hmap]
  rfl

theorem copyoutLoop_page (hlen : 0 < len) (hfuel : 0 < fuel) (hmap : userPage r root dstva = some q) (hq : q ≠ 0) :
    copyoutLoop root (fuel + 1) dstva src len r =
      copyoutLoop root fuel (dstva + chunk dstva len) (src + chunk dstva len) (len - chunk dstva len)
        (r.transfer (fun i => translate r root (dstva + i)) (fun i => r.byte (src + i)) (chunk dstva len)) := by
  obtain ⟨_, hle, hpage, hnext⟩ := chunk_spec dstva hlen
  have hmove : r.byte.move (q * 4096 + dstva % 4096) src (chunk dstva len) =
      r.byte.transfer (fun i => translate r root (dstva + i)) (fun i => r.byte (src + i)) (chunk dstva len) := by
    rw [Bytes.move_eq_transfer]
    refine Bytes.transfer_congr (fun i hi => ?_) fun i _ => rfl
    rw [translate_page hmap (by omega), Nat.add_assoc]
  have hstep : copyoutLoop root (fuel + 1) dstva src len r = copyoutLoop root fuel (pgrounddown dstva + 4096)
      (src + chunk dstva len) (len - chunk dstva len)
      (r.transfer (fun i => translate r root (dstva + i)) (fun i => r.byte (src + i)) (chunk dstva len)) := by
    conv => lhs; unfold copyoutLoop
    rw [if_pos hlen]
    dsimp only
    rw [run_bind walkaddr_pgrounddown, hmap, Option.map_some, Option.getD_some, if_neg (by omega), sub_pgrounddown,
      nextPage_eq (userPage_lt hmap), Ram.transfer, ← hmove]
    rfl
  rw [hstep]
  rcases Nat.lt_or_eq_of_le hle with hlt | heq
  · rw [hnext hlt]
  · rw [heq, Nat.sub_self, copyoutLoop_done hfuel, copyoutLoop_done hfuel]

theorem copyoutLoop_run (hT : UserTable r root) (hsrc : Outside r root src len) (hfuel : len < fuel) :
    ∃ k, Reached r root dstva len k ∧ copyoutLoop root fuel dstva src len r =
      .ok (decide (k = len),
        r.transfer (fun i => translate r root (dstva + i)) (fun i => r.byte (src + i)) k) := by
  induction fuel generalizing r dstva src len with
  | zero => exact absurd hfuel (Nat.not_lt_zero len)
  | succ fuel ih =>
    rcases Nat.eq_zero_or_pos len with rfl | hlen
    · exact ⟨0, .zero, copyoutLoop_done (Nat.zero_lt_succ fuel)⟩
    cases hmap : userPage r root dstva with
    | none =>
      refine ⟨0, .none hmap, ?_⟩
      rw [copyoutLoop_fault hlen hmap, decide_eq_false (Nat.ne_of_lt hlen)]
      rfl
    | some q =>
      obtain ⟨hpos, hle, hpage, _⟩ := chunk_spec dstva hlen
      rw [copyoutLoop_page hlen (by omega) hmap (hT.nonnull dstva q hmap)]
      generalize chunk dstva len = n at hpos hle hpage
      have haddr : ∀ i < n, translate r root (dstva + i) / 4096 = q := by
        intro i hi
        rw [translate_page hmap (by omega)]
        omega
      have htable : ∀ i < n, ¬ IsTable r root (translate r root (dstva + i) / 4096) := by
        intro i hi
        rw [haddr i hi]
        exact hT.apart dstva q hmap
      obtain ⟨hsame, _⟩ := userPage_transfer (fun i => r.byte (src + i)) htable
      generalize ht : r.transfer (fun i => translate r root (dstva + i)) (fun i => r.byte (src + i)) n = t at hsame ⊢
      have hkeep : ∀ i < len, t.byte (src + i) = r.byte (src + i) := by
        intro i hi
        rw [← ht]
        refine Bytes.transfer_out fun j hj heq => hsrc i hi dstva ?_
        rw [hmap, ← heq, haddr j hj]
      have hsrc' : Outside t root (src + n) (len - n) := by
        intro i hi va
        rw [hsame, Nat.add_assoc]
        exact hsrc (n + i) (by omega) va
      obtain ⟨k, hreach, hrun⟩ := @ih t (len - n) (src + n) (dstva + n) (ht ▸ hT.transfer htable) hsrc' (by omega)
      have hk := hreach.le
      have hdone : k = len - n ↔ n + k = len := by omega
      refine ⟨n + k, .page hmap hpage (hreach.congr hsame) hle, ?_⟩
      rw [hrun, decide_eq_decide.mpr hdone, ← ht, transfer_add]
      · intro i _
        rw [ht, translate, hsame, Nat.add_assoc]
        rfl
      · intro i hi
        rw [ht, Nat.add_assoc]
        exact hkeep (n + i) (by omega)

theorem translate_div (h : userPage r root va = some q) : translate r root va / 4096 = q := by
  rw [translate, h, Option.getD_some]
  omega

theorem Buffer.copied (hT : UserTable r root) (hdst : Buffer r root dst len) (hn : n ≤ len)
    (ht : r.transfer (dst + ·) (fun i => userByte r root (va + i)) n = t) :
    UserTable t root ∧ userPage t root = userPage r root ∧ Buffer t root (dst + n) (len - n) ∧
      (∀ b, Accessible r root b → userByte t root b = userByte r root b) ∧
      ∀ k, (∀ i < k, Accessible r root (va + n + i)) →
        t.transfer (dst + n + ·) (fun i => userByte t root (va + n + i)) k =
          r.transfer (dst + ·) (fun i => userByte r root (va + i)) (n + k) := by
  have hfree : ∀ i < n, ¬ IsTable r root ((dst + i) / 4096) := fun i hi => hdst.2 i (by omega)
  obtain ⟨hsame, htable⟩ := userPage_transfer (fun i => userByte r root (va + i)) hfree
  rw [ht] at hsame htable
  have hsee : ∀ b, Accessible r root b → userByte t root b = userByte r root b := by
    intro b hacc
    obtain ⟨q, hq⟩ := Option.isSome_iff_exists.mp hacc
    have htrans : translate t root b = translate r root b := by rw [translate, translate, hsame]
    rw [userByte, htrans, ← ht]
    refine Bytes.transfer_out fun i hi heq => hdst.1 i (by omega) b ?_
    rw [hq, heq, translate_div hq]
  refine ⟨ht ▸ hT.transfer hfree, hsame, ⟨fun i hi b => ?_, fun i hi => ?_⟩, hsee, fun k hacc => ?_⟩
  · rw [hsame, Nat.add_assoc]
    exact hdst.1 (n + i) (by omega) b
  · rw [htable, Nat.add_assoc]
    exact hdst.2 (n + i) (by omega)
  · rw [← ht, transfer_add (fun i _ => Nat.add_assoc ..)]
    intro i hi
    rw [ht, hsee _ (hacc i hi), Nat.add_assoc]

theorem copyinLoop_done (h : 0 < fuel) : copyinLoop root fuel dst srcva 0 r = .ok (true, r) := by
  obtain ⟨fuel, rfl⟩ := Nat.exists_eq_succ_of_ne_zero (Nat.ne_of_gt h)
  rfl

theorem copyinLoop_fault (hlen : 0 < len) (hmap : userPage r root srcva = none) :
    copyinLoop root (fuel + 1) dst srcva len r = .ok (false, r) := by
  unfold copyinLoop
  rw [if_pos hlen]
  dsimp only
  rw [run_bind walkaddr_pgrounddown, hmap]
  rfl

theorem copyinLoop_page (hlen : 0 < len) (hfuel : 0 < fuel) (hmap : userPage r root srcva = some q) (hq : q ≠ 0) :
    copyinLoop root (fuel + 1) dst srcva len r =
      copyinLoop root fuel (dst + chunk srcva len) (srcva + chunk srcva len) (len - chunk srcva len)
        (r.transfer (dst + ·) (fun i => userByte r root (srcva + i)) (chunk srcva len)) := by
  obtain ⟨_, hle, hpage, hnext⟩ := chunk_spec srcva hlen
  have hmove : r.byte.move dst (q * 4096 + srcva % 4096) (chunk srcva len) =
      r.byte.transfer (dst + ·) (fun i => userByte r root (srcva + i)) (chunk srcva len) := by
    rw [Bytes.move_eq_transfer]
    exact Bytes.transfer_congr (fun i _ => rfl) fun i hi => (userByte_page hmap (by omega)).symm
  have hstep : copyinLoop root (fuel + 1) dst srcva len r = copyinLoop root fuel (dst + chunk srcva len)
      (pgrounddown srcva + 4096) (len - chunk srcva len)
      (r.transfer (dst + ·) (fun i => userByte r root (srcva + i)) (chunk srcva len)) := by
    conv => lhs; unfold copyinLoop
    rw [if_pos hlen]
    dsimp only
    rw [run_bind walkaddr_pgrounddown, hmap, Option.map_some, Option.getD_some, if_neg (by omega), sub_pgrounddown,
      nextPage_eq (userPage_lt hmap), Ram.transfer, ← hmove]
    rfl
  rw [hstep]
  rcases Nat.lt_or_eq_of_le hle with hlt | heq
  · rw [hnext hlt]
  · rw [heq, Nat.sub_self, copyinLoop_done hfuel, copyinLoop_done hfuel]

theorem copyinLoop_run (hT : UserTable r root) (hdst : Buffer r root dst len) (hfuel : len < fuel) :
    ∃ k, Reached r root srcva len k ∧ copyinLoop root fuel dst srcva len r =
      .ok (decide (k = len), r.transfer (dst + ·) (fun i => userByte r root (srcva + i)) k) := by
  induction fuel generalizing r dst srcva len with
  | zero => exact absurd hfuel (Nat.not_lt_zero len)
  | succ fuel ih =>
    rcases Nat.eq_zero_or_pos len with rfl | hlen
    · exact ⟨0, .zero, copyinLoop_done (Nat.zero_lt_succ fuel)⟩
    cases hmap : userPage r root srcva with
    | none =>
      refine ⟨0, .none hmap, ?_⟩
      rw [copyinLoop_fault hlen hmap, decide_eq_false (Nat.ne_of_lt hlen)]
      rfl
    | some q =>
      obtain ⟨hpos, hle, hpage, _⟩ := chunk_spec srcva hlen
      rw [copyinLoop_page hlen (by omega) hmap (hT.nonnull srcva q hmap)]
      generalize chunk srcva len = n at hpos hle hpage
      generalize ht : r.transfer (dst + ·) (fun i => userByte r root (srcva + i)) n = t
      obtain ⟨hT', hsame, hrest, _, hadd⟩ := hdst.copied hT hle ht
      obtain ⟨k, hreach, hrun⟩ := @ih t (len - n) (dst + n) (srcva + n) hT' hrest (by omega)
      have hk := hreach.le
      have hdone : k = len - n ↔ n + k = len := by omega
      refine ⟨n + k, .page hmap hpage (hreach.congr hsame) hle, ?_⟩
      rw [hrun, decide_eq_decide.mpr hdone, hadd k (hreach.congr hsame).before]

theorem copyinstrPage_run (hsep : ∀ i < n, ∀ j < n, a + i ≠ dst + j) :
    (∃ j < n, r.byte (a + j) = 0 ∧ (∀ i < j, r.byte (a + i) ≠ 0) ∧ copyinstrPage n a dst r =
      .ok ((true, dst + j), r.transfer (dst + ·) (fun i => r.byte (a + i)) (j + 1))) ∨
    ((∀ i < n, r.byte (a + i) ≠ 0) ∧ copyinstrPage n a dst r =
      .ok ((false, dst + n), r.transfer (dst + ·) (fun i => r.byte (a + i)) n)) := by
  induction n generalizing r a dst with
  | zero => exact .inr ⟨fun i hi => absurd hi (Nat.not_lt_zero i), rfl⟩
  | succ n ih =>
    by_cases hnul : r.byte a = 0
    · refine .inl ⟨0, Nat.zero_lt_succ n, hnul, fun i hi => absurd hi (Nat.not_lt_zero i), ?_⟩
      unfold copyinstrPage
      rw [run_bind run_read, if_pos hnul, ← hnul]
      rfl
    -- the rest of the string starts in the memory with the first byte stored
    have hfirst : copyinstrPage (n + 1) a dst r =
        copyinstrPage n (a + 1) (dst + 1) (r.transfer (dst + ·) (fun i => r.byte (a + i)) 1) := by
      conv => lhs; unfold copyinstrPage
      rw [run_bind run_read, if_neg hnul]
      rfl
    rw [hfirst]
    generalize ht : r.transfer (dst + ·) (fun i => r.byte (a + i)) 1 = t
    have hkeep : ∀ i < n, t.byte (a + 1 + i) = r.byte (a + (1 + i)) := by
      intro i hi
      rw [Nat.add_assoc, ← ht]
      exact Bytes.transfer_out fun j hj heq => hsep (1 + i) (by omega) j (by omega) heq.symm
    have hadd : ∀ k ≤ n, t.transfer (dst + 1 + ·) (fun i => t.byte (a + 1 + i)) k =
        r.transfer (dst + ·) (fun i => r.byte (a + i)) (1 + k) := by
      intro k hk
      rw [← ht]
      exact transfer_add (fun i _ => Nat.add_assoc ..) fun i hi => ht ▸ hkeep i (by omega)
    have hzero : ∀ k ≤ n, (∀ i < k, t.byte (a + 1 + i) ≠ 0) → ∀ i < k + 1, r.byte (a + i) ≠ 0 := by
      intro k hk hall i hi
      cases i with
      | zero => exact hnul
      | succ i =>
        have hne := hall i (by omega)
        rwa [hkeep i (by omega), Nat.add_comm 1 i] at hne
    rcases @ih t (a + 1) (dst + 1) (fun i hi j hj => by
      have := hsep (i + 1) (by omega) (j + 1) (by omega)
      omega) with ⟨j, hj, hnull, hbefore, hrun⟩ | ⟨hall, hrun⟩
    · refine .inl ⟨j + 1, by omega, ?_, hzero j (by omega) hbefore, ?_⟩
      · rwa [hkeep j hj, Nat.add_comm 1 j] at hnull
      · rw [hrun, hadd (j + 1) (by omega), Nat.add_comm 1 (j + 1), Nat.add_assoc dst, Nat.add_comm 1 j]
    · refine .inr ⟨hzero n (Nat.le_refl n) hall, ?_⟩
      rw [hrun, hadd n (Nat.le_refl n), Nat.add_assoc dst, Nat.add_comm 1 n]

structure StringAt (r : Ram) (root va j : Nat) : Prop where
  accessible : ∀ i ≤ j, Accessible r root (va + i)
  nul : userByte r root (va + j) = 0
  before : ∀ i < j, userByte r root (va + i) ≠ 0

theorem copyinstrLoop_done (h : 0 < fuel) : copyinstrLoop root fuel dst srcva 0 r = .ok (false, r) := by
  obtain ⟨fuel, rfl⟩ := Nat.exists_eq_succ_of_ne_zero (Nat.ne_of_gt h)
  rfl

theorem copyinstrLoop_fault (hlen : 0 < len) (hmap : userPage r root srcva = none) :
    copyinstrLoop root (fuel + 1) dst srcva len r = .ok (false, r) := by
  unfold copyinstrLoop
  rw [if_pos hlen]
  dsimp only
  rw [run_bind walkaddr_pgrounddown, hmap]
  rfl

theorem copyinstrLoop_page (hlen : 0 < len) (hmap : userPage r root srcva = some q) (hq : q ≠ 0) :
    copyinstrLoop root (fuel + 1) dst srcva len r =
      (copyinstrPage (chunk srcva len) (q * 4096 + srcva % 4096) dst >>= fun x =>
        if x.1 then ret true
        else copyinstrLoop root fuel x.2 (pgrounddown srcva + 4096) (len - chunk srcva len)) r := by
  conv => lhs; unfold copyinstrLoop
  rw [if_pos hlen]
  dsimp only
  rw [run_bind walkaddr_pgrounddown, hmap, Option.map_some, Option.getD_some, if_neg (by omega), sub_pgrounddown,
    nextPage_eq (userPage_lt hmap)]
  rfl

theorem copyinstrLoop_run (hT : UserTable r root) (hdst : Buffer r root dst len) (hfuel : len < fuel) :
    (∃ j < len, StringAt r root srcva j ∧ copyinstrLoop root fuel dst srcva len r =
      .ok (true, r.transfer (dst + ·) (fun i => userByte r root (srcva + i)) (j + 1))) ∨
    (∃ k, Reached r root srcva len k ∧ (∀ i < k, userByte r root (srcva + i) ≠ 0) ∧
      copyinstrLoop root fuel dst srcva len r =
        .ok (false, r.transfer (dst + ·) (fun i => userByte r root (srcva + i)) k)) := by
  induction fuel generalizing r dst srcva len with
  | zero => exact absurd hfuel (Nat.not_lt_zero len)
  | succ fuel ih =>
    have hnone : ∀ i < 0, userByte r root (srcva + i) ≠ 0 := fun i hi => absurd hi (Nat.not_lt_zero i)
    rcases Nat.eq_zero_or_pos len with rfl | hlen
    · exact .inr ⟨0, .zero, hnone, copyinstrLoop_done (Nat.zero_lt_succ fuel)⟩
    cases hmap : userPage r root srcva with
    | none => exact .inr ⟨0, .none hmap, hnone, copyinstrLoop_fault hlen hmap⟩
    | some q =>
      obtain ⟨hpos, hle, hpage, hnext⟩ := chunk_spec srcva hlen
      rw [copyinstrLoop_page hlen hmap (hT.nonnull srcva q hmap)]
      generalize chunk srcva len = n at hpos hle hpage hnext
      have hbyte : ∀ i < n, userByte r root (srcva + i) = r.byte (q * 4096 + srcva % 4096 + i) :=
        fun i hi => userByte_page hmap (by omega)
      have hacc := accessible_page hmap hpage
      have hsep : ∀ i < n, ∀ j < n, q * 4096 + srcva % 4096 + i ≠ dst + j := by
        intro i hi j hj heq
        refine hdst.1 j (by omega) srcva ?_
        rw [hmap, ← heq]
        congr 1
        omega
      have hval : ∀ k ≤ n, r.transfer (dst + ·) (fun i => r.byte (q * 4096 + srcva % 4096 + i)) k =
          r.transfer (dst + ·) (fun i => userByte r root (srcva + i)) k := by
        intro k hk
        unfold Ram.transfer
        rw [Bytes.transfer_congr (fun i _ => rfl) fun i hi => (hbyte i (by omega)).symm]
      rcases @copyinstrPage_run r (q * 4096 + srcva % 4096) n dst hsep with ⟨j, hj, hnul, hbefore, hrun⟩ | ⟨hall, hrun⟩
      · refine .inl ⟨j, by omega, ⟨fun i hi => hacc i (by omega), (hbyte j hj).trans hnul, fun i hi => ?_⟩, ?_⟩
        · rw [hbyte i (by omega)]
          exact hbefore i hi
        · rw [run_bind hrun, if_pos rfl, hval (j + 1) (by omega)]
          rfl
      have hall' : ∀ i < n, userByte r root (srcva + i) ≠ 0 := by
        intro i hi
        rw [hbyte i hi]
        exact hall i hi
      rw [run_bind hrun, if_neg Bool.false_ne_true, hval n (Nat.le_refl n)]
      rcases Nat.lt_or_eq_of_le hle with hlt | rfl
      · generalize ht : r.transfer (dst + ·) (fun i => userByte r root (srcva + i)) n = t
        obtain ⟨hT', hsame, hrest, hsee, hadd⟩ := hdst.copied hT hle ht
        rw [hnext hlt]
        rcases @ih t (len - n) (dst + n) (srcva + n) hT' hrest (by omega) with ⟨j, hj, hstr, hrun⟩ | ⟨k, hreach, hnz, hrun⟩
        · have hacc' : ∀ i < j + 1, Accessible r root (srcva + n + i) := by
            intro i hi
            have := hstr.accessible i (by omega)
            rwa [Accessible, hsame] at this
          have hbefore : ∀ i < j, userByte r root (srcva + n + i) ≠ 0 := by
            intro i hi
            rw [← hsee _ (hacc' i (by omega))]
            exact hstr.before i hi
          refine .inl ⟨n + j, by omega, ⟨fun i hi => ?_, ?_, forall_lt_add (P := (userByte r root · ≠ 0)) hall' hbefore⟩, ?_⟩
          · exact forall_lt_add hacc hacc' i (by omega)
          · rw [← Nat.add_assoc, ← hsee _ (hacc' j (by omega))]
            exact hstr.nul
          · rw [hrun, hadd (j + 1) hacc']
            rfl
        · have hreach' := hreach.congr hsame
          have hnz' : ∀ i < k, userByte r root (srcva + n + i) ≠ 0 := by
            intro i hi
            rw [← hsee _ (hreach'.before i hi)]
            exact hnz i hi
          refine .inr ⟨n + k, .page hmap hpage hreach' hle, forall_lt_add (P := (userByte r root · ≠ 0)) hall' hnz', ?_⟩
          rw [hrun, hadd k hreach'.before]
      · refine .inr ⟨n + 0, .page hmap hpage ?_ (Nat.le_refl n), hall', ?_⟩
        · rw [Nat.sub_self]
          exact .zero
        · rw [Nat.sub_self, copyinstrLoop_done (by omega), Nat.add_zero]

theorem Reached.all_iff (h : Reached r root va len k) : k = len ↔ ∀ i < len, Accessible r root (va + i) := by
  constructor
  · rintro rfl
    exact h.before
  · intro hall
    rcases Nat.lt_or_eq_of_le h.le with hlt | heq
    · exact absurd (hall k hlt) (h.stop hlt)
    · exact heq

/-- `copyout` and `copyin` return 0 exactly if all bytes are accessible to the user, and have copied
exactly those before the first that is not. `copyinstr` returns 0 exactly if all bytes up to a null byte
within `max` are. -/
theorem user_copies (hT : UserTable r root) : (∀ (dstva len : UInt64) (src : Nat), Outside r root src len.toNat →
      ∃ k ok t, copyout root dstva.toNat src len.toNat r = .ok (ok, t) ∧
        (ok = true ↔ ∀ i < len.toNat, Accessible r root (dstva.toNat + i)) ∧
        Reached r root dstva.toNat len.toNat k ∧
        t = r.transfer (fun i => translate r root (dstva.toNat + i)) (fun i => r.byte (src + i)) k) ∧
    (∀ (srcva len : UInt64) (dst : Nat), Buffer r root dst len.toNat →
      ∃ k ok t, copyin root dst srcva.toNat len.toNat r = .ok (ok, t) ∧
        (ok = true ↔ ∀ i < len.toNat, Accessible r root (srcva.toNat + i)) ∧
        Reached r root srcva.toNat len.toNat k ∧
        t = r.transfer (dst + ·) (fun i => userByte r root (srcva.toNat + i)) k) ∧
    ∀ (srcva max : UInt64) (dst : Nat), Buffer r root dst max.toNat →
      ∃ ok t, copyinstr root dst srcva.toNat max.toNat r = .ok (ok, t) ∧
        (ok = true ↔ ∃ j < max.toNat, userByte r root (srcva.toNat + j) = 0 ∧
          ∀ i ≤ j, Accessible r root (srcva.toNat + i)) ∧
        (ok = true → ∃ j < max.toNat, StringAt r root srcva.toNat j ∧
          t = r.transfer (dst + ·) (fun i => userByte r root (srcva.toNat + i)) (j + 1)) ∧
        (ok = false → ∃ k, Reached r root srcva.toNat max.toNat k ∧
          t = r.transfer (dst + ·) (fun i => userByte r root (srcva.toNat + i)) k) := by
  refine ⟨fun dstva len src hsrc => ?_, fun srcva len dst hdst => ?_, fun srcva max dst hdst => ?_⟩
  · obtain ⟨k, hreach, hrun⟩ := copyoutLoop_run hT hsrc (Nat.lt_succ_self len.toNat)
    refine ⟨k, _, _, hrun, ?_, hreach, rfl⟩
    rw [decide_eq_true_iff]
    exact hreach.all_iff
  · obtain ⟨k, hreach, hrun⟩ := copyinLoop_run hT hdst (Nat.lt_succ_self len.toNat)
    refine ⟨k, _, _, hrun, ?_, hreach, rfl⟩
    rw [decide_eq_true_iff]
    exact hreach.all_iff
  · rcases copyinstrLoop_run hT hdst (Nat.lt_succ_self max.toNat) with ⟨j, hj, hstr, hrun⟩ | ⟨k, hreach, hnz, hrun⟩
    · refine ⟨true, _, hrun, ⟨fun _ => ⟨j, hj, hstr.nul, hstr.accessible⟩, fun _ => rfl⟩, fun _ => ⟨j, hj, hstr, rfl⟩,
        fun h => absurd h (by simp)⟩
    · refine ⟨false, _, hrun, ⟨fun h => absurd h (by simp), ?_⟩, fun h => absurd h (by simp), fun _ => ⟨k, hreach, rfl⟩⟩
      rintro ⟨j, hj, hnul, hacc⟩
      -- the null byte would be among those before the first byte that is not accessible
      rcases Nat.lt_or_ge j k with hlt | hge
      · exact absurd hnul (hnz j hlt)
      · exact absurd (hacc k hge) (hreach.stop (by omega))

def zeroBytes : Bytes := fun _ => 0

def onePage : Ram := ⟨[], ((zeroBytes.setDword 512 2049).setDword 1024 3073).setDword 1536 4119, fun _ => false⟩

theorem onePage_table (hi : i < 512) : onePage.table q i =
    if i = 0 ∧ q = 3 then 4119 else if i = 0 ∧ q = 2 then 3073 else if i = 0 ∧ q = 1 then 2049 else 0 := by
  have hset : ∀ (c : Bytes) p w, w < 18446744073709551616 → (c.setDword (512 * p) w).dword (512 * q + i) =
      if i = 0 ∧ q = p then w else c.dword (512 * q + i) := by
    intro c p w hw
    split
    next h =>
      rw [h.1, h.2]
      exact Bytes.dword_setDword_self hw
    next h => exact Bytes.dword_setDword_other (by omega)
  have hzero : zeroBytes.dword (512 * q + i) = 0 := by
    simp [Bytes.dword, Bytes.word, zeroBytes]
  rw [Ram.table, if_pos hi, Ram.pte, onePage]
  rw [show 1536 = 512 * 3 from rfl, hset _ 3 _ (by decide), show 1024 = 512 * 2 from rfl, hset _ 2 _ (by decide),
    show (zeroBytes.setDword 512 2049).dword (512 * q + i) = _ from hset _ 1 _ (by decide), hzero]

theorem onePage_next (hi : i < 512) (h : next format (onePage.table q i) = some a) :
    q = 3 ∧ a = 4 ∨ q = 2 ∧ a = 3 ∨ q = 1 ∧ a = 2 := by
  rw [onePage_table hi] at h
  split at h
  next hc => exact .inl ⟨hc.2, (Option.some.inj h).symm⟩
  split at h
  next hc => exact .inr (.inl ⟨hc.2, (Option.some.inj h).symm⟩)
  split at h
  next hc => exact .inr (.inr ⟨hc.2, (Option.some.inj h).symm⟩)
  next => cases h

theorem onePage_descend {p : List Nat} (hp : IsPath 512 2 p) (h : descend format onePage.table 1 p = some q) :
    q = p.length + 1 := by
  obtain ⟨hlen, hlt⟩ := hp
  cases p with
  | nil => exact (Option.some.inj h).symm
  | cons i p =>
    obtain ⟨a, ha, h⟩ := Option.bind_eq_some_iff.mp h
    have hnext := onePage_next (hlt i (by simp)) ha
    cases p with
    | nil =>
      have hqa : a = q := Option.some.inj h
      simp only [List.length_singleton]
      omega
    | cons j p =>
      obtain ⟨b, hb, h⟩ := Option.bind_eq_some_iff.mp h
      have hnext' := onePage_next (hlt j (by simp)) hb
      cases p with
      | nil =>
        have hqb : b = q := Option.some.inj h
        simp only [List.length_cons, List.length_nil]
        omega
      | cons k p => simp at hlen

theorem onePage_userPage (h : userPage onePage 1 va = some q) : q = 4 := by
  unfold userPage at h
  split at h
  next =>
    obtain ⟨pte, hfind, h⟩ := Option.bind_eq_some_iff.mp h
    obtain ⟨x, hx, hpte⟩ := Option.bind_eq_some_iff.mp hfind
    have hx3 := onePage_descend isPath_path hx
    have hi : va / 4096 % 512 < 512 := Nat.mod_lt _ (by decide)
    have hnext : next format (onePage.table x (va / 4096 % 512)) = some (pteToPage pte) := by
      split at hpte
      next hv =>
        cases hpte
        exact if_pos hv
      next => cases hpte
    have hpage := onePage_next hi hnext
    have hlen : (path (va / 4096)).length = 2 := rfl
    split at h
    next =>
      have hq := Option.some.inj h
      omega
    next => cases h
  next => cases h

theorem onePage_userTable : UserTable onePage 1 := by
  refine ⟨fun va q hq => ?_, fun va q hq => ?_⟩
  · rintro ⟨p, hp, hx⟩
    have h4 := onePage_userPage hq
    have hlen := onePage_descend hp hx
    have hle := hp.1
    omega
  · rw [onePage_userPage hq]
    decide

/-- Two bytes to the last byte of the page: the second is not transferred. -/
theorem user_copies_onePage : UserTable onePage 1 ∧ ∃ k ok t, copyout 1 4095 32768 2 onePage = .ok (ok, t) ∧
    (ok = true ↔ ∀ i < 2, Accessible onePage 1 (4095 + i)) ∧ Reached onePage 1 4095 2 k ∧
    t = onePage.transfer (fun i => translate onePage 1 (4095 + i)) (fun i => onePage.byte (32768 + i)) k := by
  refine ⟨onePage_userTable, (user_copies onePage_userTable).1 4095 2 32768 fun i hi va hva => ?_⟩
  have h4 := onePage_userPage hva
  have h2 : i < 2 := hi
  omega

end TweakedXv6.Phys
