import TweakedXv6.ExecLoad

namespace TweakedXv6.Phys

open Prog
open Vm (PGSIZE MAXARG Layout Pte Ghost Table KernelMap tfVpn)

structure HasString (r : Ram) (q : Nat) (arg : List UInt8) : Prop where
  fits : arg.length < 4096
  nonzero : 0 ∉ arg
  bytes : ∀ i ≤ arg.length, r.byte (q * 4096 + i) = arg.getD i 0

def up16 (n : Nat) : Nat := (n + 15) / 16 * 16

/-- The room of the strings on the stack, each with its null byte and aligned down to 16. -/
def room : List (List UInt8) → Nat
  | [] => 0
  | arg :: args => up16 (arg.length + 1) + room args

def argsRoom (args : List (List UInt8)) : Nat := room args + up16 ((args.length + 1) * 8)

def pointers : Nat → List (List UInt8) → List Nat
  | _, [] => []
  | sp, arg :: args => (sp - up16 (arg.length + 1)) :: pointers (sp - up16 (arg.length + 1)) args

variable {lay : Layout} {G : Ghost} {r r' : Ram} {T : Table}
  {d q i k n a sp src len tf us o argc ustack off va : Nat} {e : Pte} {arg : List UInt8}
  {args : List (List UInt8)} {argv : List Nat}

theorem pushDown_eq (sp n : Nat) (h16 : sp % 16 = 0) (hn : n ≤ sp) (hsp : sp < 18446744073709551616) :
    pushDown sp n = sp - up16 n ∧ up16 n ≤ sp := by
  unfold pushDown up16
  dsimp only
  omega

theorem up16_mod : up16 n % 16 = 0 := by
  unfold up16
  omega

theorem le_up16 : n ≤ up16 n := by
  unfold up16
  omega

theorem room_mod : room args % 16 = 0 := by
  induction args with
  | nil => rfl
  | cons arg args ih =>
    have hup : up16 (arg.length + 1) % 16 = 0 := up16_mod
    unfold room
    omega

theorem strlenLoop_run {fuel : Nat} (hnul : r.byte (a + n) = 0) (hbefore : ∀ i < n, r.byte (a + i) ≠ 0) (hi : i ≤ n)
    (hfuel : n < i + fuel) : strlenLoop a fuel i r = .ok (n, r) := by
  induction fuel generalizing i with
  | zero => omega
  | succ fuel ih =>
    unfold strlenLoop
    rw [run_bind run_read]
    rcases Nat.lt_or_eq_of_le hi with hlt | rfl
    · rw [if_neg (hbefore i hlt)]
      exact ih (by omega) (by omega)
    · rw [if_pos hnul]
      rfl

theorem HasString.strlen_run (h : HasString r q arg) : strlen (q * PGSIZE) r = .ok (arg.length, r) := by
  have hfits := h.fits
  refine strlenLoop_run ?_ (fun i hi => ?_) (Nat.zero_le _) (by omega)
  · exact (h.bytes arg.length (Nat.le_refl _)).trans (by simp)
  · have hbyte : r.byte (q * 4096 + i) = arg.getD i 0 := h.bytes i (by omega)
    intro hz
    refine h.nonzero ?_
    rw [show q * PGSIZE = q * 4096 from rfl, hbyte, List.getD_eq_getElem?_getD, List.getElem?_eq_getElem hi] at hz
    exact hz ▸ List.getElem_mem hi

theorem HasString.kept {P : Nat → Prop} (h : HasString r q arg) (hk : Kept P r r') (hq : P q) : HasString r' q arg := by
  refine ⟨h.fits, h.nonzero, fun i hi => ?_⟩
  have hfits := h.fits
  rw [hk.page hq (by omega), h.bytes i hi]

structure StackPage (lay : Layout) (G : Ghost) (d k : Nat) (T : Table) (e : Pte) (tf : Nat) : Prop where
  table : G.table d = some T
  kernel : KernelMap lay tf T
  leaf : T.leaf k = some e
  user : e.u = true

section Stack

variable (hp : StackPage lay G d k T e tf) (h : Sound lay G r)

include hp h

theorem StackPage.userPage (hlo : k * 4096 ≤ va)
    (hhi : va < k * 4096 + 4096) : Phys.userPage r d va = some e.ppn := by
  have hk : va / 4096 = k := by omega
  refine h.userPage_leaf hp.table hp.kernel ?_ hp.user
  rw [hk]
  exact hp.leaf

theorem StackPage.userByte (hlo : k * 4096 ≤ va)
    (hhi : va < k * 4096 + 4096) : Phys.userByte r d va = r.byte (e.ppn * 4096 + (va - k * 4096)) := by
  rw [Phys.userByte, translate, hp.userPage h hlo hhi, Option.getD_some]
  congr 1
  omega

theorem StackPage.used_ne {x : Nat} (hx : G.used x) : x ≠ e.ppn := by
  rintro rfl
  obtain ⟨_, hat⟩ := userPage_spot hp.kernel hp.leaf hp.user
  cases h.part.unique .used (.spot d (.leaf k)) e.ppn hx ⟨T, hp.table, hat⟩

theorem StackPage.copyout_run (hlo : k * 4096 ≤ sp) (hhi : sp + len ≤ k * 4096 + 4096)
    (hsrc : ∀ i < len, G.used ((src + i) / 4096)) : copyout d sp src len r = .ok (true,
      r.transfer (e.ppn * 4096 + (sp - k * 4096) + ·) (fun i => r.byte (src + i)) len) := by
  have hout : Outside r d src len := fun i hi va => Closed.of_used h hp.table hp.kernel (hsrc i hi) va
  obtain ⟨j, hreach, hrun⟩ : ∃ j, Reached r d sp len j ∧ copyoutLoop d (len + 1) sp src len r = _ :=
    copyoutLoop_run (h.userTable hp.table hp.kernel) hout (Nat.lt_succ_self len)
  have hall : j = len := hreach.all_iff.mpr fun i hi => by
    rw [Accessible, hp.userPage h (by omega) (by omega)]
    rfl
  subst hall
  unfold copyout
  rw [hrun, decide_eq_true rfl]
  have haddr : r.transfer (fun i => translate r d (sp + i)) (fun i => r.byte (src + i)) j =
      r.transfer (e.ppn * 4096 + (sp - k * 4096) + ·) (fun i => r.byte (src + i)) j := by
    unfold Ram.transfer
    rw [Bytes.transfer_congr (fun i hi => ?_) fun i _ => rfl]
    rw [translate, hp.userPage h (by omega) (by omega), Option.getD_some]
    omega
  rw [haddr]

end Stack

/-- Only the stack page below `off` and the words of `ustack` from `argc` on have changed. -/
structure Frame (r r' : Ram) (q us off ustack argc : Nat) : Prop where
  kept : Kept (fun x => x ≠ q ∧ x ≠ us) r r'
  above : ∀ j, off ≤ j → j < 4096 → r'.byte (q * 4096 + j) = r.byte (q * 4096 + j)
  words : ∀ j < argc, r'.byte.dword (ustack + j) = r.byte.dword (ustack + j)

theorem Frame.refl : Frame r r q us off ustack argc := ⟨Kept.refl, fun _ _ _ => rfl, fun _ _ => rfl⟩

theorem Frame.trans {t : Ram} {off' argc' : Nat} (h : Frame r r' q us off ustack argc)
    (h' : Frame r' t q us off' ustack argc') (hoff : off' ≤ off) (hargc : argc ≤ argc') : Frame r t q us off ustack argc where
  kept := h.kept.trans h'.kept
  above j hj hlt := (h'.above j (by omega) hlt).trans (h.above j hj hlt)
  words j hj := (h'.words j (by omega)).trans (h.words j hj)

structure Ustack (G : Ghost) (us ustack : Nat) : Prop where
  used : G.used us
  lo : 512 * us ≤ ustack
  hi : ustack + 32 ≤ 512 * us + 512

theorem Ustack.store {w v : Nat} (hs : Ustack G us ustack) (h : Sound lay G r) (hw : w < 32) :
    Sound lay G { r with byte := r.byte.setDword (ustack + w) v } ∧
      Kept (· ≠ us) r { r with byte := r.byte.setDword (ustack + w) v } := by
  obtain ⟨hused, hlo, hhi⟩ := hs
  have hkept : Kept (· ≠ us) r { r with byte := r.byte.setDword (ustack + w) v } :=
    fun a ha => Bytes.setDword_byte (by omega)
  exact ⟨h.write (fun _ _ hS => h.used_not_page hused hS) hkept rfl, hkept⟩

theorem transfer_page (o len : Nat) (val : Nat → UInt8) (hlen : o + len ≤ 4096) (h : Sound lay G r)
    (hq : ∀ d T, G.table d = some T → ¬ T.Page q) :
    Sound lay G (r.transfer (q * 4096 + o + ·) val len) ∧ Kept (· ≠ q) r (r.transfer (q * 4096 + o + ·) val len) ∧
      (∀ j < len, (r.transfer (q * 4096 + o + ·) val len).byte (q * 4096 + o + j) = val j) ∧
      ∀ j, o + len ≤ j → (r.transfer (q * 4096 + o + ·) val len).byte (q * 4096 + j) = r.byte (q * 4096 + j) := by
  have hkept : Kept (· ≠ q) r (r.transfer (q * 4096 + o + ·) val len) := by
    refine fun a ha => Bytes.transfer_out fun i hi heq => ha ?_
    omega
  refine ⟨h.write hq hkept rfl, hkept, fun j hj => ?_, fun j hj => Bytes.transfer_out fun i hi heq => ?_⟩
  · exact @Bytes.transfer_in _ _ _ (q * 4096 + o + ·) _ hj fun i hi hlt heq => by omega
  · omega

theorem push_one (hp : StackPage lay G d k T e tf) (hs : Ustack G us ustack) (h : Sound lay G r) (harg : HasString r q arg)
    (hq : G.used q) (hlo : k * 4096 ≤ a) (hhi : a + up16 (arg.length + 1) ≤ sp) (hsp : sp ≤ k * 4096 + 4096)
    (hargc : argc < 32) : ∃ r' m, copyout d a (q * PGSIZE) (arg.length + 1) r = .ok (true, r') ∧
      m = { r' with byte := r'.byte.setDword (ustack + argc) a } ∧ Sound lay G m ∧
      Frame r m e.ppn us (sp - k * 4096) ustack argc ∧ m.byte.dword (ustack + argc) = a ∧
      ∀ j ≤ arg.length, m.byte (e.ppn * 4096 + (a - k * 4096) + j) = arg.getD j 0 := by
  have hlen : arg.length + 1 ≤ up16 (arg.length + 1) := le_up16
  have hfits := harg.fits
  have hklt := hp.kernel.user_lt hp.leaf hp.user
  have hsrc : ∀ i < arg.length + 1, G.used ((q * PGSIZE + i) / 4096) := by
    intro i hi
    rwa [show (q * PGSIZE + i) / 4096 = q by unfold PGSIZE; omega]
  have hus := hp.used_ne h hs.used
  refine ⟨_, _, hp.copyout_run h hlo (by omega) hsrc, rfl, ?_⟩
  obtain ⟨ht, hkt, hin, hout⟩ := transfer_page (a - k * 4096) (arg.length + 1)
    (fun i => r.byte (q * PGSIZE + i)) (by omega) h
    fun _ _ hS => h.leaf_not_page hp.table (userPage_spot hp.kernel hp.leaf hp.user).2 hS
  generalize r.transfer (e.ppn * 4096 + (a - k * 4096) + ·) (fun i => r.byte (q * PGSIZE + i)) (arg.length + 1) = t
      at ht hkt hin hout
  obtain ⟨hm, hkm⟩ := hs.store (v := a) ht hargc
  obtain ⟨_, hulo, huhi⟩ := hs
  refine ⟨hm, ⟨(hkt.mono fun x hx => hx.1).trans (hkm.mono fun x hx => hx.2), fun j hj hlt => ?_, fun j hj => ?_⟩, ?_, ?_⟩
  · rw [hkm.page hus.symm hlt, hout j (by omega)]
  · rw [Bytes.dword_setDword_other (by omega)]
    refine Bytes.dword_congr fun i hi => hkt _ ?_
    rwa [show (8 * (ustack + j) + i) / 4096 = us by omega]
  · unfold tfVpn at hklt
    exact Bytes.dword_setDword_self (by omega)
  · intro j hj
    rw [Nat.add_assoc, hkm.page hus.symm (by omega), ← Nat.add_assoc, hin j (by omega)]
    exact harg.bytes j hj

def Copies (r : Ram) (q base : Nat) (ptrs : List Nat) (args : List (List UInt8)) : Prop :=
  ∀ i < args.length, ∀ j ≤ (args.getD i []).length,
    r.byte (q * 4096 + (ptrs.getD i 0 - base) + j) = (args.getD i []).getD j 0

theorem forall₂_mem {α β : Type} {R : α → β → Prop} {l : List α} {m : List β} (h : List.Forall₂ R l m) :
    List.Forall₂ (fun a b => a ∈ l ∧ R a b) l m := by
  induction h with
  | nil => exact .nil
  | cons hab _ ih =>
    exact .cons ⟨List.mem_cons_self, hab⟩ (ih.imp fun _ _ hx => ⟨List.mem_cons_of_mem _ hx.1, hx.2⟩)

theorem pushArgs_spec (hp : StackPage lay G d k T e tf) (hs : Ustack G us ustack) (h : Sound lay G r) (hk : 0 < k)
    (hargs : List.Forall₂ (HasString r) argv args) (hused : ∀ x ∈ argv, G.used x ∧ x ≠ us) (h16 : sp % 16 = 0)
    (hlo : k * 4096 ≤ sp) (hhi : sp ≤ k * 4096 + 4096) (hargc : argc + args.length ≤ 32) :
    Returns (pushArgs d (k * 4096) ustack argv argc sp) r fun x r' => Sound lay G r' ∧
      Frame r r' e.ppn us (sp - k * 4096) ustack argc ∧
      (x = none ∧ sp < k * 4096 + room args ∨
      x = some (argc + args.length, sp - room args) ∧ k * 4096 + room args ≤ sp ∧
        (∀ i < args.length, r'.byte.dword (ustack + argc + i) = (pointers sp args).getD i 0) ∧
        Copies r' e.ppn (k * 4096) (pointers sp args) args) := by
  induction argv generalizing r args argc sp with
  | nil =>
    cases hargs
    have hroom : k * 4096 + room [] ≤ sp := by simpa [room] using hlo
    exact ⟨h, Frame.refl, .inr ⟨rfl, hroom, fun i hi => absurd hi (Nat.not_lt_zero i),
        fun i hi => absurd hi (Nat.not_lt_zero i)⟩⟩
  | cons q argv ih =>
    cases hargs with
    | @cons _ arg _ args harg hrest =>
    have hklt := hp.kernel.user_lt hp.leaf hp.user
    have hfits := harg.fits
    unfold tfVpn at hklt
    rw [List.length_cons] at hargc
    obtain ⟨hdown, hup⟩ := pushDown_eq sp (arg.length + 1) h16 (by omega) (by omega)
    have hupmod : up16 (arg.length + 1) % 16 = 0 := up16_mod
    rw [Returns, pushArgs, if_neg (by unfold MAXARG; omega), post_run_bind harg.strlen_run]
    dsimp only
    rw [hdown, room]
    split
    next hlt => exact ⟨h, Frame.refl, .inl ⟨rfl, by omega⟩⟩
    next hge =>
    obtain ⟨hq, _⟩ := hused q List.mem_cons_self
    have hroom : sp - up16 (arg.length + 1) + up16 (arg.length + 1) ≤ sp := by omega
    have hargc' : argc < 32 := by omega
    obtain ⟨r', m, hrun, hm, hmS, hframe, hword, hcopy⟩ := push_one hp hs h harg hq (Nat.not_lt.mp hge) hroom hhi hargc'
    rw [post_run_bind hrun, if_pos rfl, post_change_bind, ← hm]
    have hused' : ∀ x ∈ argv, G.used x ∧ x ≠ us := fun x hx => hused x (List.mem_cons_of_mem q hx)
    have hargs' : List.Forall₂ (HasString m) argv args := by
      refine (forall₂_mem hrest).imp fun x arg hx => hx.2.kept hframe.kept ?_
      obtain ⟨hxu, hxs⟩ := hused' x hx.1
      exact ⟨hp.used_ne h hxu, hxs⟩
    refine (ih hmS hargs' hused' (by omega) (by omega) (by omega) (by omega)).mono ?_
    rintro x t ⟨ht, hft, hcase⟩
    refine ⟨ht, hframe.trans hft (by omega) (by omega), ?_⟩
    rcases hcase with ⟨rfl, hno⟩ | ⟨rfl, hroom, hwords, hcopies⟩
    · refine .inl ⟨rfl, ?_⟩
      generalize k * 4096 = base at hno hge
      omega
    · refine .inr ⟨?_, ?_, fun i hi => ?_, fun i hi j hj => ?_⟩
      · rw [List.length_cons, Nat.sub_sub, Nat.add_assoc, Nat.add_comm 1]
      · generalize k * 4096 = base at hroom hge
        omega
      · cases i with
        | zero => exact (hft.words argc (by omega)).trans hword
        | succ i =>
          rw [List.length_cons] at hi
          have hnext := hwords i (by omega)
          rwa [show ustack + (argc + 1) + i = ustack + argc + (i + 1) by omega] at hnext
      · cases i with
        | zero =>
          change t.byte (e.ppn * 4096 + (sp - up16 (arg.length + 1) - k * 4096) + j) = arg.getD j 0
          have hj' : j ≤ arg.length := hj
          have hlen : arg.length + 1 ≤ up16 (arg.length + 1) := le_up16
          rw [Nat.add_assoc, hft.above _ (by omega) (by omega), ← Nat.add_assoc, hcopy j hj']
        | succ i =>
          rw [List.length_cons] at hi
          exact hcopies i (by omega) j hj

theorem pointers_length (sp : Nat) (args : List (List UInt8)) : (pointers sp args).length = args.length := by
  induction args generalizing sp with
  | nil => rfl
  | cons arg args ih => rw [pointers, List.length_cons, List.length_cons, ih]

theorem pointers_bounds (sp : Nat) (hroom : room args ≤ sp) (hi : i < args.length) :
    sp - room args ≤ (pointers sp args).getD i 0 ∧ (pointers sp args).getD i 0 + (args.getD i []).length + 1 ≤ sp := by
  induction args generalizing sp i with
  | nil => cases hi
  | cons arg args ih =>
    have hup : arg.length + 1 ≤ up16 (arg.length + 1) := le_up16
    rw [room] at hroom ⊢
    rw [pointers]
    cases i with
    | zero =>
      simp only [List.getD_cons_zero]
      omega
    | succ i =>
      rw [List.length_cons] at hi
      obtain ⟨hlo, hhi⟩ := ih (sp - up16 (arg.length + 1)) (by omega) (Nat.lt_of_succ_lt_succ hi)
      simp only [List.getD_cons_succ]
      omega

theorem pointers_below {j : Nat} (hroom : room args ≤ sp) (hij : i < j) (hj : j < args.length) :
    (pointers sp args).getD j 0 + (args.getD j []).length + 1 ≤ (pointers sp args).getD i 0 := by
  induction args generalizing sp i j with
  | nil => cases hj
  | cons arg args ih =>
    rw [room] at hroom
    rw [pointers]
    cases j with
    | zero => cases hij
    | succ j =>
      rw [List.length_cons] at hj
      have hj' : j < args.length := Nat.lt_of_succ_lt_succ hj
      cases i with
      | zero => exact (pointers_bounds _ (by omega) hj').2
      | succ i => exact ih (by omega) (Nat.lt_of_succ_lt_succ hij) hj'

theorem Copies.kept {base : Nat} (h : Copies r q base (pointers (base + 4096) args) args) (hroom : room args ≤ 4096)
    (hsame : ∀ j, 4096 - room args ≤ j → j < 4096 → r'.byte (q * 4096 + j) = r.byte (q * 4096 + j)) :
    Copies r' q base (pointers (base + 4096) args) args := by
  intro i hi j hj
  obtain ⟨hlo, hhi⟩ := pointers_bounds (base + 4096) (by omega) hi
  rw [Nat.add_assoc, hsame _ (by omega) (by omega), ← Nat.add_assoc]
  exact h i hi j hj

/-- The vector is in the stack page `q` at virtual address `base`: strings at its top, the pointers from
`sp` on. -/
structure Pushed (r : Ram) (q base sp : Nat) (args : List (List UInt8)) : Prop where
  words : ∀ i ≤ args.length, r.byte.dword (q * 512 + (sp - base) / 8 + i) = (pointers (base + 4096) args).getD i 0
  copies : Copies r q base (pointers (base + 4096) args) args

theorem Ustack.words {ptrs : List Nat} (hwords : ∀ i < ptrs.length, r.byte.dword (ustack + i) = ptrs.getD i 0) :
    ∀ i ≤ ptrs.length, (r.byte.setDword (ustack + ptrs.length) 0).dword (ustack + i) = ptrs.getD i 0 := by
  intro i hi
  rcases Nat.lt_or_eq_of_le hi with hlt | rfl
  · rw [Bytes.dword_setDword_other (by omega), hwords i hlt]
  · rw [Bytes.dword_setDword_self (by omega)]
    simp

theorem execArgs_spec (hp : StackPage lay G d k T e tf) (hs : Ustack G us ustack) (h : Sound lay G r) (hk : 0 < k)
    (hargs : List.Forall₂ (HasString r) argv args) (hused : ∀ x ∈ argv, G.used x ∧ x ≠ us) (hlen : args.length < 32) :
    Returns (execArgs d (k * 4096 + 4096) ustack argv) r fun x r' => Sound lay G r' ∧
      Kept (fun x => x ≠ e.ppn ∧ x ≠ us) r r' ∧
      (x = none ∧ 4096 < argsRoom args ∨
      x = some (args.length, k * 4096 + 4096 - argsRoom args) ∧ argsRoom args ≤ 4096 ∧
        Pushed r' e.ppn (k * 4096) (k * 4096 + 4096 - argsRoom args) args) := by
  have hklt := hp.kernel.user_lt hp.leaf hp.user
  unfold tfVpn at hklt
  have hmod : room args % 16 = 0 := room_mod
  have hup : (args.length + 1) * 8 ≤ up16 ((args.length + 1) * 8) := le_up16
  have hupmod : up16 ((args.length + 1) * 8) % 16 = 0 := up16_mod
  have hus := hp.used_ne h hs.used
  rw [Returns, execArgs, show k * 4096 + 4096 - PGSIZE = k * 4096 by unfold PGSIZE; omega]
  refine Post.bind (pushArgs_spec hp hs h hk hargs hused (by omega) (by omega) (Nat.le_refl _) (by omega)) ?_
  rintro x t ⟨ht, hframe, ⟨rfl, hno⟩ | ⟨rfl, hroom, hwords, hcopies⟩⟩
  · refine ⟨ht, hframe.kept, .inl ⟨rfl, ?_⟩⟩
    unfold argsRoom
    generalize k * 4096 = base at hno
    omega
  have hroom' : room args ≤ 4096 := by
    generalize k * 4096 = base at hroom
    omega
  obtain ⟨hdown, _⟩ := pushDown_eq (k * 4096 + 4096 - room args) ((args.length + 1) * 8)
    (by omega) (by omega) (by omega)
  dsimp only
  rw [Nat.zero_add, post_change_bind, hdown, Nat.sub_sub,
      show room args + up16 ((args.length + 1) * 8) = argsRoom args from rfl]
  obtain ⟨hm, hkm⟩ := hs.store (v := 0) ht hlen
  obtain ⟨m, heq⟩ : ∃ m, m = { t with byte := t.byte.setDword (ustack + args.length) 0 } := ⟨_, rfl⟩
  have hall : ∀ i ≤ args.length, m.byte.dword (ustack + i) = (pointers (k * 4096 + 4096) args).getD i 0 := by
    rw [heq, ← pointers_length (k * 4096 + 4096) args]
    refine Ustack.words fun i hi => hwords i ?_
    rwa [pointers_length] at hi
  rw [← heq] at hm hkm ⊢
  have hkept : Kept (fun x => x ≠ e.ppn ∧ x ≠ us) r m := hframe.kept.trans (hkm.mono fun x hx => hx.2)
  have hcopies' := hcopies.kept hroom' fun j _ hj => hkm.page hus.symm hj
  have hlow : argsRoom args = room args + up16 ((args.length + 1) * 8) := rfl
  split
  next hlt =>
    refine ⟨hm, hkept, .inl ⟨rfl, ?_⟩⟩
    generalize k * 4096 = base at hlt
    omega
  next hge =>
  have hbase : 0 < k * 4096 := by omega
  have hfits : argsRoom args ≤ 4096 := by
    generalize k * 4096 = base at hge hbase
    omega
  have hend : k * 4096 + 4096 - argsRoom args + (args.length + 1) * 8 ≤ k * 4096 + 4096 := by
    generalize k * 4096 = base
    omega
  have hlast : k * 4096 + 4096 - argsRoom args - k * 4096 + (args.length + 1) * 8 ≤ 4096 := by
    generalize k * 4096 = base
    omega
  obtain ⟨hused', hulo, huhi⟩ := hs
  rw [post_run_bind (hp.copyout_run hm (Nat.not_lt.mp hge) hend fun i hi => ?_)]
  · obtain ⟨hw, hkw, hin, hout⟩ := transfer_page (k * 4096 + 4096 - argsRoom args - k * 4096)
      ((args.length + 1) * 8) (fun i => m.byte (8 * ustack + i)) hlast hm
      fun _ _ hS => hm.leaf_not_page hp.table (userPage_spot hp.kernel hp.leaf hp.user).2 hS
    have hoff : k * 4096 + 4096 - argsRoom args - k * 4096 = 4096 - argsRoom args := by omega
    rw [hoff] at hw hkw hin hout ⊢
    refine ⟨hw, hkept.trans (hkw.mono fun x hx => hx.1), .inr ⟨rfl, hfits, ?_, ?_⟩⟩
    · intro i hi
      rw [hoff, ← hall i hi]
      refine Bytes.dword_shift fun j hj => ?_
      have hbyte := hin (8 * i + j) (by omega)
      rw [show 8 * (e.ppn * 512 + (4096 - argsRoom args) / 8 + i) + j = e.ppn * 4096 + (4096 - argsRoom args) + (8 * i + j)
        by omega, hbyte]
      congr 1
      omega
    · exact hcopies'.kept hroom' fun j hj _ => hout j (by omega)
  · rwa [show (8 * ustack + i) / 4096 = us by omega]

end TweakedXv6.Phys
