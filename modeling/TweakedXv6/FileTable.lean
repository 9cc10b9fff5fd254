import Mathlib.Logic.Function.Basic
import TweakedXv6.Basic
import TweakedXv6.Prog

namespace TweakedXv6.Files

open Function (update update_self update_of_ne update_eq_self)

def NFILE : Nat := 100

def NOFILE : Nat := 16

def NINODE : Nat := 50

/-- A pipe is named by its page, an inode by its place in the inode table. -/
inductive FdType
  | none
  | pipe (pi : Nat)
  | inode (ip : Fin NINODE)
  | device (ip : Fin NINODE)
  deriving DecidableEq, Repr

structure File where
  ref : Nat := 0
  type : FdType := .none
  readable : Bool := false
  writable : Bool := false
  off : Nat := 0
  deriving DecidableEq, Repr

structure Pipe where
  readopen : Bool
  writeopen : Bool
  deriving DecidableEq, Repr

structure Ftable where
  file : Fin NFILE → File
  pipe : Nat → Option Pipe

def Ftable.setFile (s : Ftable) (f : Fin NFILE) (v : File) : Ftable :=
  { s with file := update s.file f v }

def Ftable.setPipe (s : Ftable) (pi : Nat) (o : Option Pipe) : Ftable :=
  { s with pipe := update s.pipe pi o }

open Prog

def filealloc : Prog Ftable (Option (Fin NFILE)) := do
  match ← read fun s => (List.finRange NFILE).find? fun f => (s.file f).ref = 0 with
  | none => ret none
  | some f => do
    change fun s => s.setFile f { s.file f with ref := 1 }
    ret (some f)

def filedup (f : Fin NFILE) : Prog Ftable Unit := do
  let v ← read fun s => s.file f
  if v.ref < 1 then halt "filedup"
  else change fun s => s.setFile f { v with ref := v.ref + 1 }

/-- What the last close gives up: the page of a pipe, or a reference to an inode. -/
inductive Release
  | nothing
  | page (pi : Nat)
  | inode (ip : Fin NINODE)
  deriving DecidableEq, Repr

def Pipe.close (p : Pipe) (writable : Bool) : Pipe :=
  if writable then { p with writeopen := false } else { p with readopen := false }

/-- The caller frees the page. A pipe that is gone would be a dangling pointer; the model stops there. -/
def pipeclose (pi : Nat) (writable : Bool) : Prog Ftable Release := do
  match ← read fun s => s.pipe pi with
  | none => halt "pipeclose: no pipe"
  | some p =>
    if (p.close writable).readopen = false ∧ (p.close writable).writeopen = false then do
      change fun s => s.setPipe pi none
      ret (.page pi)
    else do
      change fun s => s.setPipe pi (some (p.close writable))
      ret .nothing

/-- The caller frees what the last close gives up. -/
def fileclose (f : Fin NFILE) : Prog Ftable Release := do
  let ff ← read fun s => s.file f
  if ff.ref < 1 then halt "fileclose"
  else if 1 < ff.ref then do
    change fun s => s.setFile f { ff with ref := ff.ref - 1 }
    ret .nothing
  else do
    change fun s => s.setFile f { ff with ref := 0, type := .none }
    match ff.type with
    | .none => ret .nothing
    | .pipe pi => pipeclose pi ff.writable
    | .inode ip | .device ip => ret (.inode ip)

/-- The assignments of `pipealloc` once two files and a page are there. -/
def pipeinit (f0 f1 : Fin NFILE) (pi : Nat) : Prog Ftable Unit := do
  change fun s => s.setPipe pi (some ⟨true, true⟩)
  change fun s => s.setFile f0 { s.file f0 with type := .pipe pi, readable := true, writable := false }
  change fun s => s.setFile f1 { s.file f1 with type := .pipe pi, readable := false, writable := true }

def File.ip (v : File) : Option (Fin NINODE) :=
  match v.type with
  | .inode ip | .device ip => some ip
  | _ => none

def IsEnd (s : Ftable) (pi : Nat) (w : Bool) (f : Fin NFILE) : Prop :=
  (s.file f).type = .pipe pi ∧ (s.file f).writable = w

def Ftable.isOpen (s : Ftable) (pi : Nat) (w : Bool) : Bool :=
  match s.pipe pi with
  | none => false
  | some p => if w then p.writeopen else p.readopen

/-- The table is consistent with `n f` references to each file `f`. -/
structure Ok (n : Fin NFILE → Nat) (s : Ftable) : Prop where
  ref : ∀ f, (s.file f).ref = n f
  idle : ∀ f, n f = 0 → (s.file f).type = .none
  ends : ∀ pi w, s.isOpen pi w = true ↔ ∃ f, IsEnd s pi w f
  one : ∀ pi w f g, IsEnd s pi w f → IsEnd s pi w g → f = g
  live : ∀ pi, s.pipe pi ≠ none → ∃ w, s.isOpen pi w = true

variable {n : Fin NFILE → Nat} {s t : Ftable} {f g f0 f1 : Fin NFILE} {pi k : Nat} {v : File}
  {w : Bool}

@[simp]
theorem setFile_self : (s.setFile f v).file f = v := update_self ..

theorem setFile_other (h : g ≠ f) : (s.setFile f v).file g = s.file g := update_of_ne h ..

@[simp]
theorem setFile_pipe : (s.setFile f v).pipe = s.pipe := rfl

@[simp]
theorem setFile_isOpen : (s.setFile f v).isOpen pi w = s.isOpen pi w := rfl

theorem Ok.setFile (h : Ok n s) (hidle : v.ref = 0 → v.type = .none)
    (hend : ∀ pi w, v.type = .pipe pi ∧ v.writable = w ↔ IsEnd s pi w f) : Ok (update n f v.ref) (s.setFile f v) := by
  have hends : ∀ pi w g, IsEnd (s.setFile f v) pi w g ↔ IsEnd s pi w g := by
    intro pi w g
    by_cases hg : g = f
    · rw [hg, IsEnd, setFile_self]
      exact hend pi w
    · rw [IsEnd, setFile_other hg, IsEnd]
  constructor
  case ref =>
    intro g
    by_cases hg : g = f
    · rw [hg, setFile_self, update_self]
    · rw [setFile_other hg, update_of_ne hg]
      exact h.ref g
  case idle =>
    intro g hz
    by_cases hg : g = f
    · rw [hg, update_self] at hz
      rw [hg, setFile_self]
      exact hidle hz
    · rw [update_of_ne hg] at hz
      rw [setFile_other hg]
      exact h.idle g hz
  case ends =>
    intro pi w
    rw [setFile_isOpen, h.ends]
    exact exists_congr fun g => (hends pi w g).symm
  case one =>
    intro pi w a b ha hb
    exact h.one pi w a b ((hends _ _ _).mp ha) ((hends _ _ _).mp hb)
  case live => exact h.live

theorem Ok.setRef (h : Ok n s) (hidle : k = 0 → (s.file f).type = .none) :
    Ok (update n f k) (s.setFile f { s.file f with ref := k }) :=
  h.setFile (v := { s.file f with ref := k }) hidle fun _ _ => Iff.rfl

theorem Ok.drop (h : Ok n s) (hpipe : ∀ pi, (s.file f).type ≠ .pipe pi) :
    Ok (update n f 0) (s.setFile f { s.file f with ref := 0, type := .none }) :=
  h.setFile (v := { s.file f with ref := 0, type := .none }) (fun _ => rfl) fun pi w => by
    simp [IsEnd, hpipe pi]

theorem Ok.setNode (h : Ok n s) (hf : 0 < n f) (htype : (s.file f).type = .none)
    (href : v.ref = (s.file f).ref) (hv : ∀ pi, v.type ≠ .pipe pi) : Ok n (s.setFile f v) := by
  have hset := h.setFile (f := f) (v := v) (fun hz => by rw [href, h.ref f] at hz; omega) fun pi w => by
    simp [IsEnd, htype, hv pi]
  rwa [href, h.ref f, update_eq_self] at hset

theorem filealloc_spec (h : Ok n s) : Returns filealloc s fun r t =>
    r = none ∧ t = s ∨ ∃ f, r = some f ∧ n f = 0 ∧ Ok (update n f 1) t ∧ t.pipe = s.pipe ∧
      ∀ g, (t.file g).type = (s.file g).type := by
  rw [Returns, filealloc, post_read_bind]
  cases hfind : (List.finRange NFILE).find? fun f => (s.file f).ref = 0 with
  | none => exact .inl ⟨rfl, rfl⟩
  | some f =>
    have hzero : n f = 0 := by
      have := List.find?_some hfind
      rw [← h.ref f]
      simpa using this
    refine .inr ⟨f, rfl, hzero, h.setRef (by simp), rfl, fun g => ?_⟩
    by_cases hg : g = f
    · rw [hg, setFile_self]
    · rw [setFile_other hg]

theorem filedup_spec (h : Ok n s) (hf : 0 < n f) : Returns (filedup f) s fun _ t =>
    Ok (update n f (n f + 1)) t ∧ t.pipe = s.pipe ∧
      ∀ g, (t.file g).type = (s.file g).type := by
  rw [Returns, filedup, post_read_bind, h.ref f, if_neg (by omega)]
  refine ⟨h.setRef (by simp), rfl, fun g => ?_⟩
  by_cases hg : g = f
  · rw [hg, setFile_self]
  · rw [setFile_other hg]

/-- `fileclose` gives up an inode with its last reference, and a pipe is gone exactly when its page is
given up. -/
structure Closed (n : Fin NFILE → Nat) (s t : Ftable) (f : Fin NFILE) (r : Release) : Prop where
  ip : ∀ g, (t.file g).ip = if g = f ∧ n f = 1 then none else (s.file g).ip
  inode : ∀ i, r = .inode i ↔ n f = 1 ∧ (s.file f).ip = some i
  page : ∀ pi, r = .page pi → s.pipe pi ≠ none
  pipe : ∀ pi, t.pipe pi ≠ none ↔ s.pipe pi ≠ none ∧ r ≠ .page pi

def Pipe.keep (p : Pipe) : Option Pipe := if p.readopen = false ∧ p.writeopen = false then none else some p

theorem pipeclose_run {p : Pipe} (hp : s.pipe pi = some p) : pipeclose pi w s =
    .ok (if (p.close w).keep = none then .page pi else .nothing, s.setPipe pi (p.close w).keep) := by
  unfold pipeclose Pipe.keep
  rw [run_bind run_read, hp]
  dsimp only
  split <;> rfl

theorem isOpen_close {p : Pipe} {w' : Bool} (hp : s.pipe pi = some p) :
    (s.setPipe pi (p.close w).keep).isOpen pi w' = (s.isOpen pi w' && (w' != w)) := by
  have hself : (s.setPipe pi (p.close w).keep).pipe pi = (p.close w).keep := update_self ..
  unfold Ftable.isOpen
  rw [hself, hp]
  obtain ⟨r, o⟩ := p
  cases r <;> cases o <;> cases w <;> cases w' <;> rfl

theorem Ok.dropPipe {p : Pipe} (h : Ok n s) (hend : IsEnd s pi w f)
    (hp : s.pipe pi = some p) :
    Ok (update n f 0)
      ((s.setFile f { s.file f with ref := 0, type := .none }).setPipe pi (p.close w).keep) := by
  have hopen : ∀ w', ((s.setFile f { s.file f with ref := 0, type := .none }).setPipe pi
      (p.close w).keep).isOpen pi w' = (s.isOpen pi w' && (w' != w)) :=
    fun w' => isOpen_close (s := s.setFile f _) hp
  have hother : ∀ pi' w', pi' ≠ pi → ((s.setFile f { s.file f with ref := 0, type := .none }).setPipe pi
      (p.close w).keep).isOpen pi' w' = s.isOpen pi' w' := by
    intro pi' w' hne
    simp [Ftable.isOpen, Ftable.setPipe, Ftable.setFile, update_of_ne hne]
  have hends : ∀ pi' w' g, IsEnd ((s.setFile f { s.file f with ref := 0, type := .none }).setPipe pi
      (p.close w).keep) pi' w' g ↔ IsEnd s pi' w' g ∧ g ≠ f := by
    intro pi' w' g
    change IsEnd (s.setFile f _) pi' w' g ↔ _
    unfold IsEnd
    by_cases hg : g = f
    · simp [hg]
    · simp [setFile_other hg, hg]
  constructor
  case ref =>
    intro g
    change ((s.setFile f _).file g).ref = _
    by_cases hg : g = f
    · rw [hg, setFile_self, update_self]
    · rw [setFile_other hg, update_of_ne hg]
      exact h.ref g
  case idle =>
    intro g hz
    change ((s.setFile f _).file g).type = _
    by_cases hg : g = f
    · rw [hg, setFile_self]
    · rw [update_of_ne hg] at hz
      rw [setFile_other hg]
      exact h.idle g hz
  case ends =>
    intro pi' w'
    simp only [hends]
    by_cases hpi : pi' = pi
    · subst hpi
      rw [hopen, Bool.and_eq_true, h.ends, bne_iff_ne]
      constructor
      · rintro ⟨⟨g, hg⟩, hw⟩
        exact ⟨g, hg, fun he => hw (hg.2.symm.trans (he ▸ hend.2))⟩
      · rintro ⟨g, hg, hne⟩
        exact ⟨⟨g, hg⟩, fun hw => hne (h.one pi' w g f (hw ▸ hg) hend)⟩
    · rw [hother pi' w' hpi, h.ends]
      refine exists_congr fun g => ⟨fun hg => ⟨hg, ?_⟩, And.left⟩
      rintro rfl
      exact hpi (by simpa using hg.1.symm.trans hend.1)
  case one =>
    intro pi' w' a b ha hb
    exact h.one pi' w' a b ((hends _ _ _).mp ha).1 ((hends _ _ _).mp hb).1
  case live =>
    intro pi' hne
    by_cases hpi : pi' = pi
    · subst hpi
      have hkeep : (p.close w).keep ≠ none := by simpa [Ftable.setPipe] using hne
      refine ⟨!w, ?_⟩
      rw [hopen]
      have hopen' : s.isOpen pi' w = true := (h.ends pi' w).mpr ⟨f, hend⟩
      unfold Ftable.isOpen at hopen' ⊢
      rw [hp] at hopen' ⊢
      obtain ⟨r, o⟩ := p
      cases r <;> cases o <;> cases w <;> simp_all [Pipe.close, Pipe.keep]
    · have hs : s.pipe pi' ≠ none := by
        simpa [Ftable.setPipe, Ftable.setFile, update_of_ne hpi] using hne
      obtain ⟨w', hw'⟩ := h.live pi' hs
      exact ⟨w', (hother pi' w' hpi).trans hw'⟩

theorem fileclose_spec (h : Ok n s) (hf : 0 < n f) : Returns (fileclose f) s fun r t =>
    Ok (update n f (n f - 1)) t ∧ Closed n s t f r := by
  have hip : ∀ k g, ((s.setFile f { s.file f with ref := k }).file g).ip = (s.file g).ip := by
    intro k g
    by_cases hg : g = f
    · rw [hg, setFile_self]
      rfl
    · rw [setFile_other hg]
  have hip' : ∀ g, ((s.setFile f { s.file f with ref := 0, type := .none }).file g).ip =
      if g = f then none else (s.file g).ip := by
    intro g
    by_cases hg : g = f
    · rw [hg, setFile_self]
      simp [File.ip]
    · rw [setFile_other hg, if_neg hg]
  rw [Returns, fileclose, post_read_bind, h.ref f, if_neg (by omega)]
  split
  next hgt =>
    refine ⟨h.setRef fun hz => absurd hz (by omega), ⟨fun g => ?_, fun i => ?_, ?_, ?_⟩⟩
    · rw [hip, if_neg (by omega)]
    · simp only [reduceCtorEq, false_iff]
      omega
    · intro pi hr
      cases hr
    · intro pi
      simp
  next hle =>
    have hone : n f = 1 := by omega
    have hpred : n f - 1 = 0 := by omega
    rw [hpred, post_change_bind]
    cases htype : (s.file f).type with
    | none =>
      refine ⟨h.drop (by simp [htype]), ⟨fun g => ?_, fun i => ?_, ?_, ?_⟩⟩
      · rw [hip']
        simp [hone]
      · simp [File.ip, htype]
      · intro pi hr
        cases hr
      · intro pi
        simp
    | pipe pi =>
      have hend : IsEnd s pi (s.file f).writable f := ⟨htype, rfl⟩
      have hopen : s.isOpen pi (s.file f).writable = true := (h.ends _ _).mpr ⟨f, hend⟩
      obtain ⟨p, hp⟩ : ∃ p, s.pipe pi = some p := by
        cases hp : s.pipe pi with
        | none => simp [Ftable.isOpen, hp] at hopen
        | some p => exact ⟨p, rfl⟩
      dsimp only
      unfold Post
      rw [pipeclose_run (s := s.setFile f _) hp]
      refine ⟨h.dropPipe hend hp, ⟨fun g => ?_, fun i => ?_, ?_, ?_⟩⟩
      · change ((s.setFile f _).file g).ip = _
        rw [hip']
        simp [hone]
      · simp only [File.ip, htype, reduceCtorEq, and_false, iff_false]
        split <;> simp
      · intro pi' hr
        split at hr
        next =>
          cases hr
          simp [hp]
        next => cases hr
      · intro pi'
        by_cases hpi : pi' = pi
        · subst hpi
          simp only [Ftable.setPipe, update_self, hp, reduceCtorEq, not_false_eq_true, ne_eq,
            true_and]
          split <;> simp_all
        · simp only [Ftable.setPipe, update_of_ne hpi, setFile_pipe, ne_eq]
          have : (if (p.close (s.file f).writable).keep = none then Release.page pi else .nothing) ≠
              .page pi' := by
            split <;> simp [Ne.symm hpi]
          simp [this]
    | inode ip =>
      refine ⟨h.drop (by simp [htype]), ⟨fun g => ?_, fun i => ?_, ?_, ?_⟩⟩
      · rw [hip']
        simp [hone]
      · simp [File.ip, htype, hone]
      · intro pi hr
        cases hr
      · intro pi
        simp
    | device ip =>
      refine ⟨h.drop (by simp [htype]), ⟨fun g => ?_, fun i => ?_, ?_, ?_⟩⟩
      · rw [hip']
        simp [hone]
      · simp [File.ip, htype, hone]
      · intro pi hr
        cases hr
      · intro pi
        simp

def Ftable.withPipe (s : Ftable) (f0 f1 : Fin NFILE) (pi : Nat) : Ftable :=
  let a := s.setPipe pi (some ⟨true, true⟩)
  let b := a.setFile f0 { a.file f0 with type := .pipe pi, readable := true, writable := false }
  b.setFile f1 { b.file f1 with type := .pipe pi, readable := false, writable := true }

section NewPipe

variable (h : Ok n s) (hne : f0 ≠ f1) (h0 : 0 < n f0) (h1 : 0 < n f1) (ht0 : (s.file f0).type = .none)
  (ht1 : (s.file f1).type = .none) (hp : s.pipe pi = none)

include h hne h0 h1 ht0 ht1 hp

theorem Ok.withPipe : Ok n (s.withPipe f0 f1 pi) := by
  have hfile : ∀ g, g ≠ f0 → g ≠ f1 → (s.withPipe f0 f1 pi).file g = s.file g := by
    intro g hg0 hg1
    simp [Ftable.withPipe, Ftable.setFile, Ftable.setPipe, hg0, hg1]
  have hf0 : (s.withPipe f0 f1 pi).file f0 =
      { s.file f0 with type := .pipe pi, readable := true, writable := false } := by
    simp [Ftable.withPipe, Ftable.setFile, Ftable.setPipe, hne]
  have hf1 : (s.withPipe f0 f1 pi).file f1 =
      { s.file f1 with type := .pipe pi, readable := false, writable := true } := by
    simp [Ftable.withPipe, Ftable.setFile, Ftable.setPipe, hne.symm]
  have hself : (s.withPipe f0 f1 pi).pipe pi = some ⟨true, true⟩ := update_self ..
  have hother : ∀ pi', pi' ≠ pi → (s.withPipe f0 f1 pi).pipe pi' = s.pipe pi' :=
    fun pi' hpi => update_of_ne hpi ..
  have hfresh : ∀ w f, ¬ IsEnd s pi w f := by
    intro w f hf
    have := (h.ends pi w).mpr ⟨f, hf⟩
    simp [Ftable.isOpen, hp] at this
  -- the ends of the new pipe, and of the others
  have hnew : ∀ w g, IsEnd (s.withPipe f0 f1 pi) pi w g ↔ g = if w then f1 else f0 := by
    intro w g
    by_cases hg0 : g = f0
    · subst hg0
      cases w <;> simp [IsEnd, hf0, hne]
    · by_cases hg1 : g = f1
      · subst hg1
        cases w <;> simp [IsEnd, hf1, hne.symm]
      · have hno : ¬ IsEnd (s.withPipe f0 f1 pi) pi w g := by
          unfold IsEnd
          rw [hfile g hg0 hg1]
          exact hfresh w g
        cases w <;> simp [hno, hg0, hg1]
  have hold : ∀ pi' w g, pi' ≠ pi → (IsEnd (s.withPipe f0 f1 pi) pi' w g ↔ IsEnd s pi' w g) := by
    intro pi' w g hpi
    by_cases hg0 : g = f0
    · subst hg0
      simp [IsEnd, hf0, ht0, hpi.symm]
    · by_cases hg1 : g = f1
      · subst hg1
        simp [IsEnd, hf1, ht1, hpi.symm]
      · unfold IsEnd
        rw [hfile g hg0 hg1]
  constructor
  case ref =>
    intro g
    rw [← h.ref g]
    by_cases hg0 : g = f0
    · rw [hg0, hf0]
    · by_cases hg1 : g = f1
      · rw [hg1, hf1]
      · rw [hfile g hg0 hg1]
  case idle =>
    intro g hz
    rw [hfile g (fun he => by subst he; omega) (fun he => by subst he; omega)]
    exact h.idle g hz
  case ends =>
    intro pi' w
    by_cases hpi : pi' = pi
    · subst hpi
      simp [Ftable.isOpen, hself, hnew]
    · simp only [hold pi' w _ hpi, ← h.ends, Ftable.isOpen, hother pi' hpi]
  case one =>
    intro pi' w a b ha hb
    by_cases hpi : pi' = pi
    · subst hpi
      rw [(hnew w a).mp ha, (hnew w b).mp hb]
    · exact h.one pi' w a b ((hold _ _ _ hpi).mp ha) ((hold _ _ _ hpi).mp hb)
  case live =>
    intro pi' hp'
    by_cases hpi : pi' = pi
    · subst hpi
      exact ⟨true, by simp [Ftable.isOpen, hself]⟩
    · obtain ⟨w, hw⟩ := h.live pi' (hother pi' hpi ▸ hp')
      refine ⟨w, ?_⟩
      unfold Ftable.isOpen at hw ⊢
      rwa [hother pi' hpi]

theorem pipeinit_spec : Returns (pipeinit f0 f1 pi) s fun _ t => Ok n t ∧ (∀ g, (t.file g).ip = (s.file g).ip) ∧
      ∀ pi', t.pipe pi' ≠ none ↔ pi' = pi ∨ s.pipe pi' ≠ none := by
  refine ⟨h.withPipe hne h0 h1 ht0 ht1 hp, fun g => ?_, fun pi' => ?_⟩
  · change ((s.withPipe f0 f1 pi).file g).ip = _
    by_cases hg0 : g = f0
    · subst hg0
      simp [Ftable.withPipe, Ftable.setFile, Ftable.setPipe, hne, File.ip, ht0]
    · by_cases hg1 : g = f1
      · subst hg1
        simp [Ftable.withPipe, Ftable.setFile, Ftable.setPipe, File.ip, ht1]
      · simp [Ftable.withPipe, Ftable.setFile, Ftable.setPipe, hg0, hg1]
  · change (update s.pipe pi (some ⟨true, true⟩)) pi' ≠ none ↔ _
    by_cases hpi : pi' = pi
    · simp [hpi]
    · simp [hpi]

end NewPipe

end TweakedXv6.Files
