import TweakedXv6.FileTable
import TweakedXv6.RefCount

namespace TweakedXv6.Files

open Prog
open Function (update update_comm update_idem update_self update_of_ne update_eq_self)

abbrev Ofile := Fin NPROC × Fin NOFILE → Option (Fin NFILE)

/-- A kernel with the file table and the descriptors in its state, and what the file layer calls in its
other parts. -/
structure Host (σ : Type) where
  ft : σ → Ftable
  setFt : Ftable → σ → σ
  ofile : σ → Ofile
  setOfile : Ofile → σ → σ
  release : Release → Prog σ Unit
  kalloc : Prog σ (Option Nat)

variable {σ α β : Type} (H : Host σ) {o : Ofile} {x : Fin NPROC × Fin NOFILE} {v : Option (Fin NFILE)}

def Host.onFiles (m : Prog Ftable α) : Prog σ α := lift H.ft H.setFt m

def Host.setFd (p : Fin NPROC) (fd : Fin NOFILE) (o : Option (Fin NFILE)) : Prog σ Unit :=
  change fun s => H.setOfile (update (H.ofile s) (p, fd) o) s

/-- `fileclose` with what the last close gives up. -/
def Host.closeFile (f : Fin NFILE) : Prog σ Unit := do
  let r ← H.onFiles (fileclose f)
  H.release r

def Host.fdalloc (p : Fin NPROC) (f : Fin NFILE) : Prog σ (Option (Fin NOFILE)) := do
  match ← read fun s => (List.finRange NOFILE).find? fun fd => H.ofile s (p, fd) = none with
  | none => ret none
  | some fd => do
    H.setFd p fd (some f)
    ret (some fd)

def Host.pipealloc : Prog σ (Option (Fin NFILE × Fin NFILE)) := do
  match ← H.onFiles filealloc with
  | none => ret none
  | some f0 => do
    match ← H.onFiles filealloc with
    | none => do
      H.closeFile f0
      ret none
    | some f1 => do
      match ← H.kalloc with
      | none => do
        H.closeFile f0
        H.closeFile f1
        ret none
      | some pi => do
        H.onFiles (pipeinit f0 f1 pi)
        ret (some (f0, f1))

/-- The failure path of `sys_pipe` once both descriptors are there. -/
def Host.pipeundo (p : Fin NPROC) (fd0 fd1 : Fin NOFILE) (rf wf : Fin NFILE) : Prog σ Bool := do
  H.setFd p fd0 none
  H.setFd p fd1 none
  H.closeFile rf
  H.closeFile wf
  ret false

/-- `copy0` and `copy1` copy the two descriptors to the user. -/
def Host.sysPipe (p : Fin NPROC) (copy0 copy1 : Prog σ Bool) : Prog σ Bool := do
  match ← H.pipealloc with
  | none => ret false
  | some (rf, wf) => do
    match ← H.fdalloc p rf with
    | none => do
      H.closeFile rf
      H.closeFile wf
      ret false
    | some fd0 => do
      match ← H.fdalloc p wf with
      | none => do
        H.setFd p fd0 none
        H.closeFile rf
        H.closeFile wf
        ret false
      | some fd1 => do
        if ← copy0 then
          if ← copy1 then ret true
          else H.pipeundo p fd0 fd1 rf wf
        else H.pipeundo p fd0 fd1 rf wf

def Host.sysDup (p : Fin NPROC) (fd : Fin NOFILE) : Prog σ Bool := do
  match ← read fun s => H.ofile s (p, fd) with
  | none => ret false
  | some f => do
    match ← H.fdalloc p f with
    | none => ret false
    | some _ => do
      H.onFiles (filedup f)
      ret true

def Host.sysClose (p : Fin NPROC) (fd : Fin NOFILE) : Prog σ Bool := do
  match ← read fun s => H.ofile s (p, fd) with
  | none => ret false
  | some f => do
    H.setFd p fd none
    H.closeFile f
    ret true

/-- The part of `sys_open` that gets a file and a descriptor. -/
def Host.openFd (p : Fin NPROC) : Prog σ (Option (Fin NFILE)) := do
  match ← H.onFiles filealloc with
  | none => ret none
  | some f => do
    match ← H.fdalloc p f with
    | none => do
      H.closeFile f
      ret none
    | some _ => ret (some f)

def Host.dupFd (p np : Fin NPROC) (fd : Fin NOFILE) : Prog σ Unit := do
  let o ← read fun s => H.ofile s (p, fd)
  whenSome o fun f => do
    H.onFiles (filedup f)
    H.setFd np fd (some f)

def Host.closeFd (p : Fin NPROC) (fd : Fin NOFILE) : Prog σ Unit := do
  let o ← read fun s => H.ofile s (p, fd)
  whenSome o fun f => do
    H.closeFile f
    H.setFd p fd none

/-- What a kernel provides for its file calls: `I n s` is its invariant with `n f` references to each
file, `Same s t` that the rest of the state is as it was. -/
structure Host.Rules (E : String → Prop) (I : (Fin NFILE → Nat) → σ → Prop) (Same : σ → σ → Prop) :
    Prop where
  ft_setFt : ∀ u s, H.ft (H.setFt u s) = u
  setFt_ft : ∀ s, H.setFt (H.ft s) s = s
  ofile_setFt : ∀ u s, H.ofile (H.setFt u s) = H.ofile s
  ft_setOfile : ∀ o s, H.ft (H.setOfile o s) = H.ft s
  ofile_setOfile : ∀ o s, H.ofile (H.setOfile o s) = o
  refl : ∀ s, Same s s
  trans : ∀ s t u, Same s t → Same t u → Same s u
  same_setFt : ∀ u s, Same s (H.setFt u s)
  same_setOfile : ∀ o s, Same s (H.setOfile o s)
  ok : ∀ n s, I n s → Ok n (H.ft s)
  files : ∀ n n' s u, I n s → Ok n' u → (∀ pi, u.pipe pi ≠ none ↔ (H.ft s).pipe pi ≠ none) →
    (∀ g, (u.file g).ip = ((H.ft s).file g).ip) → I n' (H.setFt u s)
  ofile : ∀ n s o, I n s → I n (H.setOfile o s)
  release : ∀ n n' s u f r, I n s → 0 < n f → Ok n' u → Closed n (H.ft s) u f r →
    Post E (H.release r) (H.setFt u s) fun _ t => I n' t ∧ Same s t ∧ H.ofile t = H.ofile s
  kalloc : ∀ n s, I n s → Post E H.kalloc s fun r t =>
    Same s t ∧ H.ofile t = H.ofile s ∧ H.ft t = H.ft s ∧ (r = none ∧ I n t ∨
      ∃ pi, r = some pi ∧ (H.ft t).pipe pi = none ∧ ∀ u, Ok n u →
        (∀ g, (u.file g).ip = ((H.ft t).file g).ip) →
        (∀ pi', u.pipe pi' ≠ none ↔ pi' = pi ∨ (H.ft t).pipe pi' ≠ none) → I n (H.setFt u t))

variable {H} {E : String → Prop} {I : (Fin NFILE → Nat) → σ → Prop} {Same : σ → σ → Prop} {s t : σ}
  {n : Fin NFILE → Nat} {f g f0 f1 : Fin NFILE} {p np : Fin NPROC} {fd : Fin NOFILE}

theorem bind_onFiles {c : Prog Ftable α} {k : α → Prog σ β} {P : α → Ftable → Prop} {Q : β → σ → Prop}
    (h : Post E c (H.ft s) P) (hk : ∀ a u, P a u → Post E (k a) (H.setFt u s) Q) : Post E (H.onFiles c >>= k) s Q :=
  post_bind.mpr (Post.lift h hk)

/-- The descriptors of one process change, and the counts follow. -/
structure Fds (H : Host σ) (I : (Fin NFILE → Nat) → σ → Prop) (Same : σ → σ → Prop)
    (p : Fin NPROC) (s t : σ) : Prop where
  inv : I (holders (H.ofile t)) t
  same : Same s t
  others : ∀ q fd, q ≠ p → H.ofile t (q, fd) = H.ofile s (q, fd)

theorem Fds.refl (R : H.Rules E I Same) (h : I (holders (H.ofile s)) s) : Fds H I Same p s s :=
  ⟨h, R.refl s, fun _ _ _ => rfl⟩

section

variable (R : H.Rules E I Same)
include R

theorem closeFile_spec (h : I n s) (hf : 0 < n f) : Post E (H.closeFile f) s fun _ t =>
    I (update n f (n f - 1)) t ∧ Same s t ∧ H.ofile t = H.ofile s := by
  refine bind_onFiles ((fileclose_spec (R.ok n s h) hf).mono_panic fun _ => False.elim) ?_
  rintro r u ⟨hok, hclosed⟩
  exact R.release n _ s u f r h hf hok hclosed

theorem fdalloc_spec (h : I n s) : Post E (H.fdalloc p f) s fun r t =>
    r = none ∧ t = s ∨ ∃ fd, r = some fd ∧ H.ofile s (p, fd) = none ∧ I n t ∧ Same s t ∧
      H.ft t = H.ft s ∧ H.ofile t = update (H.ofile s) (p, fd) (some f) := by
  rw [Host.fdalloc, post_read_bind]
  cases hfind : (List.finRange NOFILE).find? fun fd => H.ofile s (p, fd) = none with
  | none => exact .inl ⟨rfl, rfl⟩
  | some fd =>
    exact .inr ⟨fd, rfl, by simpa using List.find?_some hfind, R.ofile n s _ h, R.same_setOfile _ s,
      R.ft_setOfile _ s, R.ofile_setOfile _ s⟩

theorem setFd_spec {o : Option (Fin NFILE)} (h : I n s) : Post E (H.setFd p fd o) s fun _ t =>
    I n t ∧ Same s t ∧ H.ofile t = update (H.ofile s) (p, fd) o :=
  ⟨R.ofile n s _ h, R.same_setOfile _ s, R.ofile_setOfile _ s⟩

theorem closeBoth_spec (h : I (update (update n f0 1) f1 1) s) (hne : f0 ≠ f1) (h0 : n f0 = 0) (h1 : n f1 = 0) :
    Post E (H.closeFile f0 >>= fun _ => H.closeFile f1) s fun _ t => I n t ∧ Same s t ∧ H.ofile t = H.ofile s := by
  refine Post.bind (closeFile_spec R (f := f0) h (by simp [hne])) ?_
  rintro _ t ⟨ht, hsame, hofile⟩
  refine (closeFile_spec R (f := f1) ht (by simp [hne.symm])).mono ?_
  rintro _ u ⟨hu, hsame', hofile'⟩
  refine ⟨?_, R.trans s t u hsame hsame', hofile'.trans hofile⟩
  convert hu using 1
  funext g
  by_cases hg1 : g = f1
  · simp [hg1, h1, hne.symm]
  · by_cases hg0 : g = f0
    · simp [hg0, hne, h0]
    · simp [hg0, hg1]

theorem filealloc_host (h : I n s) : Post E (H.onFiles filealloc) s fun r t =>
    Same s t ∧ H.ofile t = H.ofile s ∧ (r = none ∧ I n t ∨ ∃ f, r = some f ∧ n f = 0 ∧
      I (update n f 1) t ∧ (∀ g, ((H.ft t).file g).type = ((H.ft s).file g).type)) := by
  refine Post.lift ((filealloc_spec (R.ok n s h)).mono_panic fun _ => False.elim) ?_
  rintro r u (⟨rfl, rfl⟩ | ⟨f, rfl, hf, hok, hpipe, htype⟩)
  · rw [R.setFt_ft]
    exact ⟨R.refl s, rfl, .inl ⟨rfl, h⟩⟩
  · refine ⟨R.same_setFt u s, R.ofile_setFt u s, .inr ⟨f, rfl, hf, ?_, ?_⟩⟩
    · refine R.files n _ s u h hok (fun pi => by rw [hpipe]) fun g => ?_
      unfold File.ip
      rw [htype g]
    · intro g
      rw [R.ft_setFt]
      exact htype g

theorem pipealloc_spec (h : I n s) : Post E H.pipealloc s fun r t =>
    Same s t ∧ H.ofile t = H.ofile s ∧ (r = none ∧ I n t ∨
      ∃ f0 f1, r = some (f0, f1) ∧ n f0 = 0 ∧ n f1 = 0 ∧ f0 ≠ f1 ∧
        I (update (update n f0 1) f1 1) t) := by
  refine Post.bind (filealloc_host R h) ?_
  rintro r s0 ⟨hsame0, hofile0, ⟨rfl, hs0⟩ | ⟨f0, rfl, h0, hs0, htype0⟩⟩
  · exact ⟨hsame0, hofile0, .inl ⟨rfl, hs0⟩⟩
  refine Post.bind (filealloc_host R hs0) ?_
  rintro r s1 ⟨hsame1, hofile1, hr⟩
  have hsame : Same s s1 := R.trans _ _ _ hsame0 hsame1
  have hofile : H.ofile s1 = H.ofile s := hofile1.trans hofile0
  rcases hr with ⟨rfl, hs1⟩ | ⟨f1, rfl, h1, hs1, htype1⟩
  · refine Post.bind (closeFile_spec R hs1 (by simp)) ?_
    rintro _ t ⟨ht, hsame', hofile'⟩
    refine ⟨R.trans _ _ _ hsame hsame', hofile'.trans hofile, .inl ⟨rfl, ?_⟩⟩
    convert ht using 1
    funext g
    by_cases hg : g = f0 <;> simp [hg, h0]
  have hne : f0 ≠ f1 := by
    rintro rfl
    simp at h1
  have h1' : n f1 = 0 := by simpa [hne.symm] using h1
  refine Post.bind (R.kalloc _ s1 hs1) ?_
  rintro r s2 ⟨hsame2, hofile2, hft, hr⟩
  have hsame' : Same s s2 := R.trans _ _ _ hsame hsame2
  rcases hr with ⟨rfl, hs2⟩ | ⟨pi, rfl, hnew, hpipe⟩
  · dsimp only
    rw [← bind_assoc]
    refine Post.bind (closeBoth_spec R hs2 hne h0 h1') ?_
    rintro _ t ⟨ht, hsame3, hofile3⟩
    exact ⟨R.trans _ _ _ hsame' hsame3, (hofile3.trans hofile2).trans hofile, .inl ⟨rfl, ht⟩⟩
  · have htype : ∀ g, n g = 0 → ((H.ft s2).file g).type = .none := by
      intro g hg
      rw [hft, htype1, htype0, (R.ok n s h).idle g hg]
    have hok : Ok (update (update n f0 1) f1 1) (H.ft s2) := hft ▸ R.ok _ _ hs1
    refine bind_onFiles ((pipeinit_spec hok hne (by simp [hne]) (by simp) (htype f0 h0) (htype f1 h1')
      hnew).mono_panic fun _ => False.elim) ?_
    rintro _ u ⟨hu, hip, hpipe'⟩
    refine ⟨R.trans _ _ _ hsame' (R.same_setFt u s2), ?_, .inr ⟨f0, f1, rfl, h0, h1', hne, ?_⟩⟩
    · rw [R.ofile_setFt, hofile2, hofile]
    · exact hpipe u hu hip hpipe'

omit R in
theorem update_undo
    (h : o x = none) : update (update o x v) x none = o := by
  rw [update_idem, ← h, update_eq_self]

omit R in
theorem update_others {q : Fin NPROC} {k : Fin NOFILE}
    (h : q ≠ p) : update o (p, fd) v (q, k) = o (q, k) :=
  update_of_ne (fun he => h (congrArg Prod.fst he)) ..

theorem sysPipe_spec {copy0 copy1 : Prog σ Bool} (h : I (holders (H.ofile s)) s)
    (hcopy : ∀ c, c = copy0 ∨ c = copy1 → ∀ n u, I n u → Same s u →
      Post E c u fun _ t => I n t ∧ Same u t ∧ H.ofile t = H.ofile u) :
    Post E (H.sysPipe p copy0 copy1) s fun _ t => Fds H I Same p s t := by
  refine Post.bind (pipealloc_spec R h) ?_
  rintro r s1 ⟨hsame, hofile, ⟨rfl, hs1⟩ | ⟨rf, wf, rfl, hrf, hwf, hne, hs1⟩⟩
  · exact ⟨hofile ▸ hs1, hsame, fun q fd _ => by rw [hofile]⟩
  -- closing both files from a state with the descriptors of `s`
  have hundo : ∀ u, I (update (update (holders (H.ofile s)) rf 1) wf 1) u →
      Same s u → H.ofile u = H.ofile s →
      Post E (H.closeFile rf >>= fun _ => H.closeFile wf >>= fun _ => ret false) u fun _ t =>
        Fds H I Same p s t := by
    intro u hu husame huofile
    rw [← bind_assoc]
    refine Post.bind (closeBoth_spec R hu hne hrf hwf) ?_
    rintro _ w ⟨hw, hwsame, hwofile⟩
    have heq : H.ofile w = H.ofile s := hwofile.trans huofile
    exact ⟨heq ▸ hw, R.trans _ _ _ husame hwsame, fun q fd _ => by rw [heq]⟩
  dsimp only
  refine Post.bind (fdalloc_spec R hs1) ?_
  rintro r s2 (⟨rfl, rfl⟩ | ⟨fd0, rfl, hfd0, hs2, hsame2, _, hofile2⟩)
  · exact hundo s2 hs1 hsame hofile
  rw [hofile] at hofile2 hfd0
  have hsame2 := R.trans _ _ _ hsame hsame2
  refine Post.bind (fdalloc_spec R hs2) ?_
  rintro r s3 (⟨rfl, rfl⟩ | ⟨fd1, rfl, hfd1, hs3, hsame3, _, hofile3⟩)
  · refine Post.bind (setFd_spec R hs2) ?_
    rintro _ u ⟨hu, husame, huofile⟩
    refine hundo u hu (R.trans _ _ _ hsame2 husame) ?_
    rw [huofile, hofile2, update_undo hfd0]
  have hsame3 := R.trans _ _ _ hsame2 hsame3
  have hfd : fd0 ≠ fd1 := by
    rintro rfl
    simp [hofile2] at hfd1
  rw [hofile2] at hofile3 hfd1
  -- the failure path, which also clears the descriptors
  have hback : ∀ u, I (update (update (holders (H.ofile s)) rf 1) wf 1) u →
      Same s u → H.ofile u = H.ofile s3 →
      Post E (H.pipeundo p fd0 fd1 rf wf) u fun _ t => Fds H I Same p s t := by
    intro u hu husame huofile
    refine Post.bind (setFd_spec R hu) ?_
    rintro _ v ⟨hv, hvsame, hvofile⟩
    refine Post.bind (setFd_spec R hv) ?_
    rintro _ w ⟨hw, hwsame, hwofile⟩
    refine hundo w hw (R.trans _ _ _ husame (R.trans _ _ _ hvsame hwsame)) ?_
    have hx : (p, fd0) ≠ (p, fd1) := fun he => hfd (congrArg Prod.snd he)
    rw [hwofile, hvofile, huofile, hofile3, update_comm hx, update_undo hfd1, update_undo hfd0]
  dsimp only
  refine Post.bind (hcopy copy0 (.inl rfl) _ s3 hs3 hsame3) ?_
  rintro ok s4 ⟨hs4, hsame4, hofile4⟩
  have hsame4 := R.trans _ _ _ hsame3 hsame4
  cases ok with
  | false => exact hback s4 hs4 hsame4 hofile4
  | true =>
    refine Post.bind (hcopy copy1 (.inr rfl) _ s4 hs4 hsame4) ?_
    rintro ok s5 ⟨hs5, hsame5, hofile5⟩
    have hsame5 := R.trans _ _ _ hsame4 hsame5
    have hofile5 := hofile5.trans hofile4
    cases ok with
    | false => exact hback s5 hs5 hsame5 hofile5
    | true =>
      refine ⟨?_, hsame5, fun q fd hq => ?_⟩
      · convert hs5 using 1
        funext g
        rw [hofile5, hofile3, holders_fill hfd1, holders_fill hfd0]
        by_cases hg1 : g = wf
        · simp [hg1, hwf, hne.symm]
        · by_cases hg0 : g = rf
          · simp [hg0, hne, hrf]
          · simp [hg0, hg1]
      · rw [hofile5, hofile3, update_others hq, update_others hq]

theorem filedup_host (h : I n s) (hf : 0 < n f) : Post E (H.onFiles (filedup f)) s fun _ t =>
    I (update n f (n f + 1)) t ∧ Same s t ∧ H.ofile t = H.ofile s := by
  refine Post.lift ((filedup_spec (R.ok n s h) hf).mono_panic fun _ => False.elim) ?_
  rintro _ u ⟨hok, hpipe, htype⟩
  refine ⟨R.files n _ s u h hok (fun pi => by rw [hpipe]) fun g => ?_, R.same_setFt u s, R.ofile_setFt u s⟩
  unfold File.ip
  rw [htype g]

omit R in
theorem holders_dup (h : o x = none) :
    holders (update o x (some f)) = update (holders o) f (holders o f + 1) := by
  funext g
  rw [holders_fill h]
  by_cases hg : g = f <;> simp [hg]

theorem sysDup_spec (h : I (holders (H.ofile s)) s) : Post E (H.sysDup p fd) s fun _ t => Fds H I Same p s t := by
  rw [Host.sysDup, post_read_bind]
  cases hf : H.ofile s (p, fd) with
  | none => exact .refl R h
  | some f =>
    refine Post.bind (fdalloc_spec R h) ?_
    rintro r t (⟨rfl, rfl⟩ | ⟨fd', rfl, hfd', ht, hsame, _, hofile⟩)
    · exact .refl R h
    · refine Post.bind (filedup_host R ht (holders_pos.mpr ⟨(p, fd), hf⟩)) ?_
      rintro _ u ⟨hu, husame, huofile⟩
      refine ⟨?_, R.trans _ _ _ hsame husame, fun q k hq => ?_⟩
      · rw [huofile, hofile, holders_dup hfd']
        exact hu
      · rw [huofile, hofile, update_others hq]

omit R in
theorem holders_drop (h : o x = some f) :
    holders (update o x none) = update (holders o) f (holders o f - 1) := by
  funext g
  have hclear := holders_clear (r := g) h
  by_cases hg : g = f
  · subst hg
    rw [if_pos rfl] at hclear
    rw [update_self]
    omega
  · rw [if_neg hg, Nat.add_zero] at hclear
    rw [update_of_ne hg]
    exact hclear

section Calls

variable (h : I (holders (H.ofile s)) s)

include h

theorem sysClose_spec : Post E (H.sysClose p fd) s fun _ t => Fds H I Same p s t := by
  rw [Host.sysClose, post_read_bind]
  cases hf : H.ofile s (p, fd) with
  | none => exact .refl R h
  | some f =>
    refine Post.bind (setFd_spec R h) ?_
    rintro _ t ⟨ht, hsame, hofile⟩
    refine Post.bind (closeFile_spec R ht (holders_pos.mpr ⟨(p, fd), hf⟩)) ?_
    rintro _ u ⟨hu, husame, huofile⟩
    refine ⟨?_, R.trans _ _ _ hsame husame, fun q k hq => ?_⟩
    · rw [huofile, hofile, holders_drop hf]
      exact hu
    · rw [huofile, hofile, update_others hq]

theorem closeFd_spec : Post E (H.closeFd p fd) s fun _ t =>
    I (holders (H.ofile t)) t ∧ Same s t ∧ H.ofile t = update (H.ofile s) (p, fd) none := by
  rw [Host.closeFd, post_read_bind]
  cases hf : H.ofile s (p, fd) with
  | none =>
    refine ⟨h, R.refl s, ?_⟩
    rw [← hf, update_eq_self]
  | some f =>
    refine Post.bind (closeFile_spec R h (holders_pos.mpr ⟨(p, fd), hf⟩)) ?_
    rintro _ t ⟨ht, hsame, hofile⟩
    refine (setFd_spec R ht).mono ?_
    rintro _ u ⟨hu, husame, huofile⟩
    rw [hofile] at huofile
    refine ⟨?_, R.trans _ _ _ hsame husame, huofile⟩
    rw [huofile, holders_drop hf]
    exact hu

theorem dupFd_spec (hnew : H.ofile s (np, fd) = none) :
    Post E (H.dupFd p np fd) s fun _ t => I (holders (H.ofile t)) t ∧ Same s t ∧
      H.ofile t = update (H.ofile s) (np, fd) (H.ofile s (p, fd)) := by
  rw [Host.dupFd, post_read_bind]
  cases hf : H.ofile s (p, fd) with
  | none =>
    refine ⟨h, R.refl s, ?_⟩
    rw [← hnew, update_eq_self]
  | some f =>
    refine Post.bind (filedup_host R h (holders_pos.mpr ⟨(p, fd), hf⟩)) ?_
    rintro _ t ⟨ht, hsame, hofile⟩
    refine (setFd_spec R ht).mono ?_
    rintro _ u ⟨hu, husame, huofile⟩
    rw [hofile] at huofile
    refine ⟨?_, R.trans _ _ _ hsame husame, huofile⟩
    rw [huofile, holders_dup hnew]
    exact hu

theorem closeFds_spec : Post E (each (List.finRange NOFILE) (H.closeFd p)) s fun _ t =>
      Fds H I Same p s t ∧ ∀ fd, H.ofile t (p, fd) = none := by
  refine (Post.each (I := fun l t => Fds H I Same p s t ∧ ∀ fd, fd ∉ l → H.ofile t (p, fd) = none)
    ⟨.refl R h, fun fd hfd => absurd (List.mem_finRange fd) hfd⟩ ?_).mono ?_
  · rintro fd l t ⟨ht, hnone⟩
    refine (closeFd_spec R ht.inv).mono ?_
    rintro _ u ⟨hu, husame, huofile⟩
    refine ⟨⟨hu, R.trans _ _ _ ht.same husame, fun q k hq => ?_⟩, fun k hk => ?_⟩
    · rw [huofile, update_others hq, ht.others q k hq]
    · by_cases hfd : k = fd
      · rw [huofile, hfd, update_self]
      · rw [huofile, update_of_ne (fun he => hfd (congrArg Prod.snd he))]
        exact hnone k (by simp [hfd, hk])
  · rintro _ t ⟨ht, hnone⟩
    exact ⟨ht, fun fd => hnone fd List.not_mem_nil⟩

theorem dupFds_spec (hnone : ∀ fd, H.ofile s (np, fd) = none) :
    Post E (each (List.finRange NOFILE) (H.dupFd p np)) s fun _ t => Fds H I Same np s t := by
  refine (Post.each (I := fun l t => Fds H I Same np s t ∧ l.Nodup ∧ ∀ fd ∈ l, H.ofile t (np, fd) = none)
    ⟨.refl R h, List.nodup_finRange _, fun fd _ => hnone fd⟩ ?_).mono fun _ t ht => ht.1
  rintro fd l t ⟨ht, hnodup, hfree⟩
  obtain ⟨hfd, hl⟩ := List.nodup_cons.mp hnodup
  refine (dupFd_spec R ht.inv (hfree fd List.mem_cons_self)).mono ?_
  rintro _ u ⟨hu, husame, huofile⟩
  refine ⟨⟨hu, R.trans _ _ _ ht.same husame, fun q k hq => ?_⟩, hl, fun k hk => ?_⟩
  · rw [huofile, update_others hq, ht.others q k hq]
  · have hne : (np, k) ≠ (np, fd) := by
      intro he
      cases he
      exact hfd hk
    rw [huofile, update_of_ne hne]
    exact hfree k (List.mem_cons_of_mem fd hk)

theorem openFd_spec : Post E (H.openFd p) s fun r t =>
    Fds H I Same p s t ∧ ∀ f, r = some f → ((H.ft t).file f).type = .none ∧ 0 < holders (H.ofile t) f := by
  refine Post.bind (filealloc_host R h) ?_
  rintro r s1 ⟨hsame, hofile, ⟨rfl, hs1⟩ | ⟨f, rfl, hf, hs1, htype⟩⟩
  · refine ⟨⟨hofile ▸ hs1, hsame, fun q k _ => by rw [hofile]⟩, ?_⟩
    intro f hr
    cases hr
  refine Post.bind (fdalloc_spec R hs1) ?_
  rintro r t (⟨rfl, rfl⟩ | ⟨fd, rfl, hfd, ht, hsame', hft, hofile'⟩)
  · refine Post.bind (closeFile_spec R hs1 (by simp)) ?_
    rintro _ u ⟨hu, husame, huofile⟩
    refine ⟨⟨?_, R.trans _ _ _ hsame husame, fun q k _ => by rw [huofile, hofile]⟩, ?_⟩
    · convert hu using 1
      funext g
      rw [huofile, hofile]
      by_cases hg : g = f <;> simp [hg, hf]
    · intro f hr
      cases hr
  · rw [hofile] at hofile' hfd
    refine ⟨⟨?_, R.trans _ _ _ hsame hsame', fun q k hq => ?_⟩, ?_⟩
    · convert ht using 1
      rw [hofile', holders_dup hfd, hf]
    · rw [hofile', update_others hq]
    · intro g hr
      cases hr
      rw [hft, htype, (R.ok _ s h).idle f hf]
      exact ⟨rfl, holders_pos.mpr ⟨(p, fd), by rw [hofile', update_self]⟩⟩

end Calls

end

end TweakedXv6.Files
