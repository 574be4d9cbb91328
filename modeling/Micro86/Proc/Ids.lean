import Micro86.Lib.Transition
import Micro86.Sys.Args

/-!
# User and group ids

The calls that change the ids of a process.  The ids are 16-bit fields, the arguments 32-bit signed
integers; `sys_setpgid` stores its argument in the group id of the parent of the process it finds.

* `user_ids_confined` — user ids stay among the three of an ancestor without privileges, and a call
  that fails changes none of them.
* `group_ids_confined` — group ids stay among those of the ancestor in every run in which neither
  `setpgid` nor `setresgid` by a process with gid 0 stores another one.
* `ids_set_iff` — when a call that returns 0 has set the ids.
-/

namespace Micro86.Creds

open Function

def EPERM : Int32 := 1
def ESRCH : Int32 := 3
def ENOMEM : Int32 := 12

/-- `uid`, `euid`, `suid`, or `gid`, `egid`, `sgid`. -/
structure Ids where
  real : UInt16
  eff : UInt16
  saved : UInt16
  deriving DecidableEq, Repr

def idEq (id : UInt16) (arg : Int32) : Prop := (id.toNat : Int) = arg.toInt
deriving Decidable

/-- What an assignment to an `unsigned short` keeps of its argument. -/
def ushort (arg : Int32) : UInt16 := arg.toUInt32.toUInt16

def setreuid (ruid euid : Int32) (u : Ids) : Int32 × Ids :=
  if ruid > 0 ∧ ¬ (idEq u.eff ruid ∨ idEq u.real ruid ∨ u.eff = 0) then (-EPERM, u)
  else
    let v := if ruid > 0 then { u with real := ushort ruid } else u
    if euid > 0 then
      if idEq u.real euid ∨ idEq v.eff euid ∨ v.eff = 0 then (0, { v with eff := ushort euid })
      else (-EPERM, { v with real := u.real })
    else (0, v)

def setregid (suser : Bool) (rgid egid : Int32) (g : Ids) : Int32 × Ids :=
  if rgid > 0 ∧ ¬ (idEq g.real rgid ∨ suser = true) then (-EPERM, g)
  else
    let h := if rgid > 0 then { g with real := ushort rgid } else g
    if egid > 0 then
      if idEq h.real egid ∨ idEq h.eff egid ∨ idEq h.saved egid ∨
        suser = true then (0, { h with eff := ushort egid })
      else (-EPERM, h)
    else (0, h)

/-- The body of `sys_setresuid` and `sys_setresgid`; both take the real id for the test of
    privilege. -/
def setres (real eff saved : Int32) (u : Ids) : Int32 × Ids :=
  if real < -1 ∨ eff < -1 ∨ saved < -1 then (-EPERM, u)
  else if u.real ≠ 0 ∧
      (real ≠ -1 ∧ ¬ idEq u.real real ∧ ¬ idEq u.eff real ∨
        eff ≠ -1 ∧ ¬ idEq u.real eff ∧ ¬ idEq u.saved eff ∨ saved ≠ -1 ∧
          ¬ idEq u.eff saved) then (-EPERM, u)
  else
    let v := if real ≠ -1 then { u with real := ushort real } else u
    let w := if eff ≠ -1 then { v with eff := ushort eff } else v
    (0, if saved ≠ -1 then { w with saved := ushort saved }
      else if eff ≠ -1 then { w with saved := w.eff } else w)

def sysSetuid (uid : Int32) (u : Ids) : Int32 × Ids := setreuid uid uid u

def sysSetreuid (ruid euid : Int32) (u : Ids) : Int32 × Ids := setreuid ruid euid u

def sysSetresuid (uid euid suid : Int32) (u : Ids) : Int32 × Ids := setres uid euid suid u

def sysSetgid (suser : Bool) (gid : Int32) (g : Ids) : Int32 × Ids := setregid suser gid gid g

def sysSetregid (suser : Bool) (rgid egid : Int32) (g : Ids) : Int32 × Ids :=
  setregid suser rgid egid g

def sysSetresgid (gid egid sgid : Int32) (g : Ids) : Int32 × Ids := setres gid egid sgid g

/-! ## The process table -/

/-- A slot of the process table; `used` unless its state is `UNUSED`. -/
structure Proc where
  used : Bool
  pid : Int32
  parent : Option (Fin NPROC)
  user : Ids
  group : Ids

structure Table where
  procs : Fin NPROC → Proc
  nextpid : Int32
  /-- The process of the first table that a process descends from; no call reads it. -/
  origin : Fin NPROC → Fin NPROC

inductive ForkEnd where
  | child
  /-- No page for the kernel stack. -/
  | noStack
  /-- `copyuvm` runs out of memory. -/
  | noMemory
  deriving DecidableEq

inductive Call where
  | setuid (uid : Int32)
  | setreuid (ruid euid : Int32)
  | setresuid (uid euid suid : Int32)
  | setgid (gid : Int32)
  | setregid (rgid egid : Int32)
  | setresgid (gid egid sgid : Int32)
  | setpgid (pid pgid : Int32)
  | fork (fate : ForkEnd)

namespace Table

variable (t : Table)

def put (i : Fin NPROC) (p : Proc) : Table := { t with procs := update t.procs i p }

@[simp] theorem put_self (i : Fin NPROC) (p : Proc) : (t.put i p).procs i = p := by
  simp [put]

theorem put_of_ne {i k : Fin NPROC} (h : k ≠ i) (p : Proc) : (t.put i p).procs k = t.procs k := by
  simp [put, update_of_ne h]

def onUser (i : Fin NPROC) (f : Ids → Int32 × Ids) : Int32 × Table :=
  ((f (t.procs i).user).1, t.put i { t.procs i with user := (f (t.procs i).user).2 })

def onGroup (i : Fin NPROC) (f : Ids → Int32 × Ids) : Int32 × Table :=
  ((f (t.procs i).group).1, t.put i { t.procs i with group := (f (t.procs i).group).2 })

def find (pid : Int32) : Option (Fin NPROC) :=
  (List.finRange NPROC).find? fun j => (t.procs j).pid == pid

def unused : Option (Fin NPROC) := (List.finRange NPROC).find? fun j => !(t.procs j).used

/-- The process whose group id `sys_setpgid` changes.  For a process without a parent it stores
    through a null pointer, into user memory. -/
def setpgidParent (pid : Int32) : Option (Fin NPROC) :=
  (t.find pid).bind fun p => (t.procs p).parent

def sysSetpgid (i : Fin NPROC) (pid pgid : Int32) : Int32 × Table :=
  let pid := if pid = 0 then (t.procs i).pid else pid
  let pgid := if pgid = 0 then pid else pgid
  match t.find pid with
  | none => (-ESRCH, t)
  | some _ =>
    match t.setpgidParent pid with
    | some q =>
        (0, t.put q { t.procs q with group := { (t.procs q).group with real := ushort pgid } })
    | none => (0, t)

def fork (i : Fin NPROC) (fate : ForkEnd) : Int32 × Table :=
  match t.unused with
  | none => (-ENOMEM, t)
  | some j =>
    -- `allocproc`
    let np : Proc := { t.procs j with
      pid := t.nextpid
      user := { (t.procs j).user with real := 0 }
      group := { (t.procs j).group with real := 0 } }
    let t : Table := { t with nextpid := t.nextpid + 1 }
    -- the saved group id is the parent's effective one
    let ids : Proc := { np with
      user := (t.procs i).user
      group := ⟨(t.procs i).group.real, (t.procs i).group.eff, (t.procs i).group.eff⟩ }
    match fate with
    | .noStack => (-ENOMEM, t.put j np)
    | .noMemory => (-ENOMEM, t.put j ids)
    | .child =>
      (np.pid, { t.put j { ids with used := true, parent := some i } with
        origin := update t.origin j (t.origin i) })

def call (i : Fin NPROC) : Call → Int32 × Table
  | .setuid uid => t.onUser i (sysSetuid uid)
  | .setreuid ruid euid => t.onUser i (sysSetreuid ruid euid)
  | .setresuid uid euid suid => t.onUser i (sysSetresuid uid euid suid)
  | .setgid gid => t.onGroup i (sysSetgid ((t.procs i).user.eff = 0) gid)
  | .setregid rgid egid => t.onGroup i (sysSetregid ((t.procs i).user.eff = 0) rgid egid)
  | .setresgid gid egid sgid => t.onGroup i (sysSetresgid gid egid sgid)
  | .setpgid pid pgid => t.sysSetpgid i pid pgid
  | .fork fate => t.fork i fate

end Table

def Calls (t : Table) (a : Fin NPROC × Call) (u : Table) : Prop :=
  (t.procs a.1).used = true ∧ u = (t.call a.1 a.2).2

/-! ## One call -/

structure Ids.Within (S : UInt16 → Prop) (u : Ids) : Prop where
  real : S u.real
  eff : S u.eff
  saved : S u.saved

section

variable {S : UInt16 → Prop} {u : Ids} {id : UInt16} {arg : Int32}
variable {real eff saved : Int32}

theorem ushort_of_idEq (h : idEq id arg) : ushort arg = id := by
  have hid := id.toNat_lt
  have hnn : 0 ≤ arg.toInt := h ▸ Int.natCast_nonneg _
  have hval : arg.toUInt32.toNat = id.toNat := by
    rw [Sys.toNat_toUInt32_of_nonneg hnn, ← h]
    rfl
  refine UInt16.toNat_inj.mp ?_
  rw [ushort, UInt32.toNat_toUInt16, hval, Nat.mod_eq_of_lt hid]

theorem setreuid_within {ruid euid : Int32} (h : u.Within S) (hpriv : u.eff ≠ 0) :
    (setreuid ruid euid u).2.Within S := by
  unfold setreuid
  split
  · exact h
  rename_i hr
  have hv : (if ruid > 0 then { u with real := ushort ruid } else u).Within S := by
    split
    · rename_i hpos
      have hone : idEq u.eff ruid ∨ idEq u.real ruid := by
        by_contra hno
        refine hr ⟨hpos, ?_⟩
        rintro (he | he | he)
        · exact hno (.inl he)
        · exact hno (.inr he)
        · exact hpriv he
      refine ⟨?_, h.eff, h.saved⟩
      rcases hone with he | he
      · exact ushort_of_idEq he ▸ h.eff
      · exact ushort_of_idEq he ▸ h.real
    · exact h
  have heff :
      (if ruid > 0 then { u with real := ushort ruid } else u).eff = u.eff := by split <;> rfl
  dsimp only
  generalize (if ruid > 0 then { u with real := ushort ruid } else u) = v at hv heff ⊢
  split
  · split
    · rename_i he
      refine ⟨hv.real, ?_, hv.saved⟩
      rw [heff] at he
      rcases he with he | he | he
      · exact ushort_of_idEq he ▸ h.real
      · exact ushort_of_idEq he ▸ h.eff
      · exact absurd he hpriv
    · exact ⟨h.real, hv.eff, hv.saved⟩
  · exact hv

theorem setregid_within {rgid egid : Int32} (h : u.Within S) :
    (setregid false rgid egid u).2.Within S := by
  unfold setregid
  split
  · exact h
  rename_i hr
  have hv : (if rgid > 0 then { u with real := ushort rgid } else u).Within S := by
    split
    · rename_i hpos
      have hone : idEq u.real rgid := by
        simpa [hpos] using hr
      exact ⟨ushort_of_idEq hone ▸ h.real, h.eff, h.saved⟩
    · exact h
  dsimp only
  generalize (if rgid > 0 then { u with real := ushort rgid } else u) = v at hv ⊢
  split
  · split
    · rename_i he
      refine ⟨hv.real, ?_, hv.saved⟩
      rcases he with he | he | he | he
      · exact ushort_of_idEq he ▸ hv.real
      · exact ushort_of_idEq he ▸ hv.eff
      · exact ushort_of_idEq he ▸ hv.saved
      · cases he
    · exact hv
  · exact hv

/-- What a call of `setres` that succeeds stores: arguments that a process without privileges has
    among its ids. -/
structure Stored (real eff saved : Int32) (u v : Ids) : Prop where
  realIs : v.real = if real ≠ -1 then ushort real else u.real
  effIs : v.eff = if eff ≠ -1 then ushort eff else u.eff
  savedIs : v.saved = if saved ≠ -1 then ushort saved else if eff ≠ -1 then v.eff else u.saved
  given : ¬ (real < -1 ∨ eff < -1 ∨ saved < -1)
  own : u.real ≠ 0 → (real ≠ -1 → idEq u.real real ∨ idEq u.eff real) ∧
    (eff ≠ -1 → idEq u.real eff ∨ idEq u.saved eff) ∧ (saved ≠ -1 → idEq u.eff saved)

theorem setres_cases (real eff saved : Int32) (u : Ids) :
    (u.real = 0 → real < -1 ∨ eff < -1 ∨ saved < -1) ∧ setres real eff saved u = (-EPERM, u) ∨
    ∃ v, Stored real eff saved u v ∧ setres real eff saved u = (0, v) := by
  unfold setres
  split
  · rename_i hneg
    exact .inl ⟨fun _ => hneg, rfl⟩
  rename_i hneg
  split
  · rename_i hperm
    exact .inl ⟨fun h => absurd h hperm.1, rfl⟩
  rename_i hperm
  refine .inr ⟨_, ⟨?_, ?_, ?_, hneg, fun h => by tauto⟩, rfl⟩
  all_goals split_ifs <;> rfl

theorem Stored.within {v : Ids} (hv : Stored real eff saved u v)
    (h : u.Within S) (hreal : real ≠ -1 → S (ushort real))
    (heff : eff ≠ -1 → S (ushort eff)) (hsaved : saved ≠ -1 → S (ushort saved)) : v.Within S := by
  have heff' : S v.eff := by
    rw [hv.effIs]
    split
    · exact heff ‹_›
    · exact h.eff
  refine ⟨?_, heff', ?_⟩
  · rw [hv.realIs]
    split
    · exact hreal ‹_›
    · exact h.real
  · rw [hv.savedIs]
    split
    · exact hsaved ‹_›
    split
    · exact heff'
    · exact h.saved

theorem setres_assigned (h : u.Within S) (hreal : real ≠ -1 → S (ushort real))
    (heff : eff ≠ -1 → S (ushort eff)) (hsaved : saved ≠ -1 → S (ushort saved)) :
    (setres real eff saved u).2.Within S := by
  rcases setres_cases real eff saved u with ⟨-, hrun⟩ | ⟨v, hv, hrun⟩
  · rw [hrun]
    exact h
  · rw [hrun]
    exact hv.within h hreal heff hsaved

theorem setres_within (h : u.Within S) (hpriv : u.real ≠ 0) :
    (setres real eff saved u).2.Within S := by
  rcases setres_cases real eff saved u with ⟨-, hrun⟩ | ⟨v, hv, hrun⟩
  · rw [hrun]
    exact h
  rw [hrun]
  obtain ⟨h1, h2, h3⟩ := hv.own hpriv
  refine hv.within h (fun hne => ?_) (fun hne => ?_) (fun hne => ushort_of_idEq (h3 hne) ▸ h.eff)
  · rcases h1 hne with he | he
    · exact ushort_of_idEq he ▸ h.real
    · exact ushort_of_idEq he ▸ h.eff
  · rcases h2 hne with he | he
    · exact ushort_of_idEq he ▸ h.real
    · exact ushort_of_idEq he ▸ h.saved

theorem setreuid_failed {ruid euid : Int32} (h : (setreuid ruid euid u).1 < 0) :
    (setreuid ruid euid u).2 = u := by
  unfold setreuid at h ⊢
  split at h
  · rename_i hr
    rw [if_pos hr]
  rename_i hr
  rw [if_neg hr]
  have hback :
      ({ (if ruid > 0 then { u with real := ushort ruid } else u) with real := u.real } : Ids) =
      u := by split <;> rfl
  dsimp only at h ⊢
  generalize (if ruid > 0 then { u with real := ushort ruid } else u) = v at h hback ⊢
  split at h
  · rename_i he
    rw [if_pos he]
    split at h
    · cases h
    rename_i hne
    rw [if_neg hne]
    exact hback
  · cases h

theorem setres_failed (h : (setres real eff saved u).1 < 0) : (setres real eff saved u).2 = u := by
  rcases setres_cases real eff saved u with ⟨-, hrun⟩ | ⟨v, -, hrun⟩
  · rw [hrun]
  · rw [hrun] at h
    cases h

end

/-! ## Runs -/

/-- Every process has `P`, with the process it descends from. -/
def Every (P : Fin NPROC → Proc → Prop) (t : Table) : Prop :=
  ∀ k, (t.procs k).used = true → P (t.origin k) (t.procs k)

section

variable {P : Fin NPROC → Proc → Prop} {t : Table} {i : Fin NPROC}

theorem Every.put {p : Proc} (h : Every P t) (hp : p.used = true → P (t.origin i) p) :
    Every P (t.put i p) := by
  intro k hk
  show P (t.origin k) (update t.procs i p k)
  have hk : (update t.procs i p k).used = true := hk
  by_cases hki : k = i
  · subst hki
    rw [update_self] at hk ⊢
    exact hp hk
  · rw [update_of_ne hki] at hk ⊢
    exact h k hk

theorem unused_spec {j : Fin NPROC} (h : t.unused = some j) : (t.procs j).used = false := by
  have := List.find?_some h
  simpa using this

/-- The child has the ids of the caller, but for the saved group id; a slot without a child stays
    unused. -/
theorem Every.fork {fate : ForkEnd} (h : Every P t)
    (hchild : ∀ p : Proc, p.user = (t.procs i).user →
      p.group = ⟨(t.procs i).group.real, (t.procs i).group.eff, (t.procs i).group.eff⟩ →
        P (t.origin i) p) :
    Every P (t.fork i fate).2 := by
  unfold Table.fork
  cases hj : t.unused with
  | none => exact h
  | some j =>
    have hfree := unused_spec hj
    have hnext : Every P { t with nextpid := t.nextpid + 1 } := h
    cases fate with
    | noStack | noMemory =>
      exact hnext.put fun hused => absurd (hfree.symm.trans hused) Bool.false_ne_true
    | child =>
      intro k hk
      by_cases hkj : k = j
      · subst hkj
        simp only [Table.put, update_self]
        exact hchild _ rfl rfl
      · simp only [Table.put, update_of_ne hkj] at hk ⊢
        exact h k hk

theorem Every.onUser {f : Ids → Int32 × Ids} (h : Every P t) (hi : (t.procs i).used = true)
    (hf : P (t.origin i) (t.procs i) →
      P (t.origin i) { t.procs i with user := (f (t.procs i).user).2 }) :
    Every P (t.onUser i f).2 := h.put fun _ => hf (h i hi)

theorem Every.onGroup {f : Ids → Int32 × Ids} (h : Every P t) (hi : (t.procs i).used = true)
    (hf : P (t.origin i) (t.procs i) →
      P (t.origin i) { t.procs i with group := (f (t.procs i).group).2 }) :
    Every P (t.onGroup i f).2 := h.put fun _ => hf (h i hi)

def pgidArg (t : Table) (i : Fin NPROC) (pid pgid : Int32) : Int32 :=
  if pgid = 0 then (if pid = 0 then (t.procs i).pid else pid) else pgid

def pgidTarget (t : Table) (i : Fin NPROC) (pid : Int32) : Option (Fin NPROC) :=
  t.setpgidParent (if pid = 0 then (t.procs i).pid else pid)

theorem Every.setpgid {pid pgid : Int32} (h : Every P t)
    (hq : ∀ q, pgidTarget t i pid = some q → (t.procs q).used = true → P (t.origin q) (t.procs q) →
      P (t.origin q) { t.procs q with
        group := { (t.procs q).group with real := ushort (pgidArg t i pid pgid) } }) :
    Every P (t.sysSetpgid i pid pgid).2 := by
  unfold Table.sysSetpgid
  dsimp only
  split
  · exact h
  split
  · rename_i q hparent
    exact h.put fun hused => hq q hparent hused (h q hused)
  · exact h

end

variable {t : Table} {i : Fin NPROC} {c : Call}

def Ids.Has (u : Ids) (x : UInt16) : Prop := x = u.real ∨ x = u.eff ∨ x = u.saved
deriving Decidable

theorem Ids.within_has (u : Ids) : u.Within u.Has := ⟨.inl rfl, .inr (.inl rfl), .inr (.inr rfl)⟩

def UserWithin (o : Fin NPROC) (u : Ids) (k : Fin NPROC) (p : Proc) : Prop :=
  k = o → p.user.Within u.Has

theorem call_userWithin {o : Fin NPROC} {u : Ids} (hnz : ¬ u.Has 0) (h : Every (UserWithin o u) t)
    (hi : (t.procs i).used = true) : Every (UserWithin o u) (t.call i c).2 := by
  have hpriv : ∀ {v : Ids}, v.Within u.Has → v.real ≠ 0 ∧ v.eff ≠ 0 := fun hv =>
    ⟨fun h0 => hnz (h0 ▸ hv.real), fun h0 => hnz (h0 ▸ hv.eff)⟩
  cases c with
  | setuid uid | setreuid ruid euid =>
    exact h.onUser hi fun hp ho =>
      setreuid_within (hp ho) (hpriv (hp ho)).2
  | setresuid uid euid suid =>
    exact h.onUser hi fun hp ho =>
      setres_within (hp ho) (hpriv (hp ho)).1
  | setgid gid | setregid rgid egid | setresgid gid egid sgid => exact h.onGroup hi id
  | setpgid pid pgid => exact h.setpgid fun q _ _ hp => hp
  | fork fate =>
    refine h.fork fun p huser _ ho => ?_
    rw [huser]
    exact h i hi ho

theorem call_failed (h : (t.call i c).1 < 0) (hi : (t.procs i).used = true) :
    ((t.call i c).2.procs i).user = (t.procs i).user := by
  cases c with
  | setuid uid | setreuid ruid euid =>
    show ((t.put i _).procs i).user = _
    rw [Table.put_self]
    exact setreuid_failed h
  | setresuid uid euid suid =>
    show ((t.put i _).procs i).user = _
    rw [Table.put_self]
    exact setres_failed h
  | setgid gid | setregid rgid egid | setresgid gid egid sgid =>
    show ((t.put i _).procs i).user = _
    rw [Table.put_self]
  | setpgid pid pgid =>
    show ((t.sysSetpgid i pid pgid).2.procs i).user = _
    unfold Table.sysSetpgid
    dsimp only
    split
    · rfl
    split
    · rename_i q _
      by_cases hq : i = q
      · subst hq
        rw [Table.put_self]
      · rw [t.put_of_ne hq]
    · rfl
  | fork fate =>
    show ((t.fork i fate).2.procs i).user = _
    unfold Table.fork
    cases hj : t.unused with
    | none => rfl
    | some j =>
      have hij : i ≠ j := by
        rintro rfl
        rw [unused_spec hj] at hi
        cases hi
      cases fate <;> exact congrArg Proc.user (Table.put_of_ne _ hij _)

/-- A table before any of the calls. -/
def Table.Fresh (t : Table) : Prop := ∀ k, t.origin k = k

/-- The user ids of a process whose ids are not zero, and of its descendants, stay among its three;
    and a call that fails changes no user id of its caller. -/
theorem user_ids_confined (t u : Table) (i : Fin NPROC) (as : List (Fin NPROC × Call))
    (hfresh : t.Fresh)
    (hnz : (t.procs i).user.real ≠ 0 ∧ (t.procs i).user.eff ≠ 0 ∧
      (t.procs i).user.saved ≠ 0) (hrun : Run Calls t as u) :
    (∀ k, (u.procs k).used = true → u.origin k = i → (u.procs k).user.Within (t.procs i).user.Has) ∧
      ∀ k c, (u.procs k).used = true → (u.call k c).1 < 0 →
        ((u.call k c).2.procs k).user = (u.procs k).user := by
  have hzero : ¬ (t.procs i).user.Has 0 := by
    rintro (h | h | h)
    · exact hnz.1 h.symm
    · exact hnz.2.1 h.symm
    · exact hnz.2.2 h.symm
  have hinv : Every (UserWithin i (t.procs i).user) u := by
    refine Run.invariant (I := Every (UserWithin i (t.procs i).user))
      (fun s a v hs hcall => ?_) hrun ?_
    · obtain ⟨hused, rfl⟩ := hcall
      exact call_userWithin hzero hs hused
    · intro k _ hk
      rw [hfresh k] at hk
      exact hk ▸ Ids.within_has _
  exact ⟨hinv, fun k c hused hfail => call_failed hfail hused⟩

def slot0 : Fin NPROC := ⟨0, NPROC_pos⟩
def slot1 : Fin NPROC := ⟨1, one_lt_NPROC⟩

def soleProc : Table where
  procs i := if i = slot0 then ⟨true, 1, none, ⟨1000, 1000, 1000⟩, ⟨100, 100, 100⟩⟩
    else ⟨false, 0, none, ⟨0, 0, 0⟩, ⟨0, 0, 0⟩⟩
  nextpid := 2
  origin := id

/-- The process forks, and its child asks for user 0. -/
theorem user_ids_confined_child : ∃ u,
    Run Calls soleProc [(slot0, .fork .child), (slot1, .setreuid 1000 0), (slot1, .setuid 5)] u ∧
    (u.procs slot1).user.Within (soleProc.procs slot0).user.Has := by
  have hrun :
      Run Calls soleProc [(slot0, .fork .child), (slot1, .setreuid 1000 0), (slot1, .setuid 5)] _ :=
    .cons ⟨rfl, rfl⟩ (.cons ⟨by decide +kernel, rfl⟩ (.cons ⟨by decide +kernel, rfl⟩ (.nil _)))
  refine ⟨_, hrun, ?_⟩
  exact (user_ids_confined soleProc _ slot0 _ (fun _ => rfl) (by decide) hrun).1
    slot1 (by decide +kernel) (by decide +kernel)

/-! ## Group ids -/

def GroupWithin (t : Table) (o : Fin NPROC) (p : Proc) : Prop :=
  p.group.Within (t.procs o).group.Has

/-- No process has effective user id 0. -/
def Unprivileged (t : Table) : Prop := ∀ k, (t.procs k).used = true → (t.procs k).user.eff ≠ 0
deriving Decidable

/-- `setresgid` by a process with gid 0, and `setpgid`, store only ids of the ancestor. -/
def Call.Ok (first t : Table) (i : Fin NPROC) : Call → Prop
  | .setresgid gid egid sgid =>
    (t.procs i).group.real ≠ 0 ∨
      (gid ≠ -1 → (first.procs (t.origin i)).group.Has (ushort gid)) ∧
      (egid ≠ -1 → (first.procs (t.origin i)).group.Has (ushort egid)) ∧
      (sgid ≠ -1 → (first.procs (t.origin i)).group.Has (ushort sgid))
  | .setpgid pid pgid => ∀ q, pgidTarget t i pid = some q →
        (first.procs (t.origin q)).group.Has (ushort (pgidArg t i pid pgid))
  | _ => True

instance (first t : Table) (i : Fin NPROC) (c : Call) : Decidable (c.Ok first t i) := by
  unfold Call.Ok
  split <;> infer_instance

theorem call_groupWithin {first : Table} (h : Every (GroupWithin first) t) (hpriv : Unprivileged t)
    (hi : (t.procs i).used = true) (hok : c.Ok first t i) :
    Every (GroupWithin first) (t.call i c).2 := by
  have hsu : decide ((t.procs i).user.eff = 0) = false := decide_eq_false (hpriv i hi)
  cases c with
  | setuid uid | setreuid ruid euid | setresuid uid euid suid => exact h.onUser hi id
  | setgid gid =>
    show Every _ (t.onGroup i (sysSetgid (decide ((t.procs i).user.eff = 0)) gid)).2
    rw [hsu]
    exact h.onGroup hi setregid_within
  | setregid rgid egid =>
    show Every _ (t.onGroup i (sysSetregid (decide ((t.procs i).user.eff = 0)) rgid egid)).2
    rw [hsu]
    exact h.onGroup hi setregid_within
  | setresgid gid egid sgid =>
    refine h.onGroup hi fun hp => ?_
    rcases hok with hreal | ⟨hg, he, hs⟩
    · exact setres_within hp hreal
    · exact setres_assigned hp hg he hs
  | setpgid pid pgid => exact h.setpgid fun q hq _ hp => ⟨hok q hq, hp.eff, hp.saved⟩
  | fork fate =>
    refine h.fork fun p _ hgroup => ?_
    have hp := h i hi
    unfold GroupWithin
    rw [hgroup]
    exact ⟨hp.real, hp.eff, hp.eff⟩

/-- In every run of processes without privileges in which all calls are `Ok`. -/
theorem group_ids_confined (t u : Table) (as : List (Fin NPROC × Call)) (hfresh : t.Fresh)
    (hrun : Run (fun s a v => Calls s a v ∧ Unprivileged s ∧ a.2.Ok t s a.1) t as u) :
    ∀ k, (u.procs k).used = true → (u.procs k).group.Within (t.procs (u.origin k)).group.Has := by
  refine Run.invariant (I := Every (GroupWithin t)) (fun s a v hs hnext => ?_) hrun fun k _ => ?_
  · obtain ⟨⟨hused, rfl⟩, hpriv, hok⟩ := hnext
    exact call_groupWithin hs hpriv hused hok
  · show (t.procs k).group.Within (t.procs (t.origin k)).group.Has
    rw [hfresh k]
    exact Ids.within_has _

/-- A child sets the group of its parent to one that is its own. -/
theorem group_ids_confined_child :
    ∃ u, Run (fun s a v => Calls s a v ∧ Unprivileged s ∧ a.2.Ok soleProc s a.1) soleProc
    [(slot0, .fork .child), (slot1, .setpgid 0 100)] u ∧
    (u.procs slot0).group.Within (soleProc.procs slot0).group.Has := by
  have hrun : Run (fun s a v => Calls s a v ∧ Unprivileged s ∧ a.2.Ok soleProc s a.1) soleProc
      [(slot0, .fork .child), (slot1, .setpgid 0 100)] _ :=
    .cons ⟨⟨rfl, rfl⟩, by decide +kernel, trivial⟩
      (.cons ⟨⟨by decide +kernel, rfl⟩, by decide +kernel, by decide +kernel⟩ (.nil _))
  refine ⟨_, hrun, ?_⟩
  exact group_ids_confined soleProc _ _ (fun _ => rfl) hrun slot0 (by decide +kernel)

def wheelProc : Table :=
  { soleProc with
    procs := update soleProc.procs slot0
      ⟨true, 1, none, ⟨1000, 1000, 1000⟩, ⟨0, 0, 0⟩⟩ }

/-- A child with `setpgid(0, 4)` gives its parent group 4; and a process with gid 0 takes group 4 by
    `setresgid(4, -1, -1)`. -/
theorem group_escalated :
    (∃ u, Run (fun s a v => Calls s a v ∧ Unprivileged s) soleProc
      [(slot0, .fork .child), (slot1, .setpgid 0 4)] u ∧
      (u.procs slot0).group.real = 4 ∧ ¬ (soleProc.procs slot0).group.Has 4) ∧
    ∃ u, Run (fun s a v => Calls s a v ∧ Unprivileged s) wheelProc
      [(slot0, .setresgid 4 (-1) (-1))] u ∧
      (u.procs slot0).group.real = 4 ∧ ¬ (wheelProc.procs slot0).group.Has 4 := by
  refine ⟨⟨_, .cons ⟨⟨rfl, rfl⟩, by decide +kernel⟩
    (.cons ⟨⟨by decide +kernel, rfl⟩, by decide +kernel⟩ (.nil _)), ?_⟩,
    ⟨_, .cons ⟨⟨by decide +kernel, rfl⟩, by decide +kernel⟩ (.nil _), ?_⟩⟩
  · decide +kernel
  · decide +kernel

/-! ## Calls that succeed -/

def IsId (arg : Int32) : Prop := 0 ≤ arg.toInt ∧ arg.toInt < 65536

/-- If the call returns 0, real and effective id are the argument. -/
def SetsBoth (r : Int32 × Ids) (arg : Int32) : Prop :=
  r.1 = 0 → idEq r.2.real arg ∧ idEq r.2.eff arg

/-- If the call returns 0, the ids are the arguments other than -1. -/
def SetsGiven (r : Int32 × Ids) (real eff saved : Int32) : Prop :=
  r.1 = 0 → (real ≠ -1 → idEq r.2.real real) ∧ (eff ≠ -1 → idEq r.2.eff eff) ∧
    (saved ≠ -1 → idEq r.2.saved saved)

section

variable {u : Ids} {id : UInt16} {arg : Int32}

theorem isId_of_idEq (h : idEq id arg) : IsId arg := by
  have hid := id.toNat_lt
  unfold idEq at h
  unfold IsId
  omega

theorem idEq_ushort : idEq (ushort arg) arg ↔ IsId arg := by
  refine ⟨isId_of_idEq, fun h => ?_⟩
  unfold idEq
  obtain ⟨hnn, hlt⟩ := h
  rw [ushort, UInt32.toNat_toUInt16, Sys.toNat_toUInt32_of_nonneg hnn]
  omega

theorem failed_sets {r : Int32 × Ids} (h : r.1 = -EPERM) : r.1 ≠ 0 := by
  rw [h]
  decide

theorem both_ignored {r : Int32 × Ids} (hpos : ¬ arg > 0) (h : r = (0, u)) (P : Prop) :
    SetsBoth r arg ↔ if arg > 0 then P else idEq u.real arg ∧ idEq u.eff arg := by
  rw [if_neg hpos, h]
  exact ⟨fun h => h rfl, fun h _ => h⟩

/-- The calls that set both ids when `perm` holds, as it does for the superuser. -/
theorem both_sets {r : Int32 × Ids} {perm super : Prop} (hpos : arg > 0) {P : Prop}
    (hok : perm → r = (0, { u with real := ushort arg, eff := ushort arg }))
    (hno : ¬ perm → r = (-EPERM, u)) (hsuper : super → perm)
    (hid : perm → IsId arg ∨ super) :
    SetsBoth r arg ↔ if arg > 0 then super → IsId arg else P := by
  rw [if_pos hpos]
  by_cases hperm : perm
  · rw [hok hperm]
    refine ⟨fun h _ => idEq_ushort.mp (h rfl).1, fun h _ => ?_⟩
    have hid : IsId arg := (hid hperm).elim id h
    exact ⟨idEq_ushort.mpr hid, idEq_ushort.mpr hid⟩
  · rw [hno hperm]
    exact ⟨fun _ he => absurd (hsuper he) hperm, fun _ h => absurd h (failed_sets rfl)⟩

theorem setreuid_sets : SetsBoth (setreuid arg arg u) arg ↔ if arg > 0 then u.eff = 0 →
    IsId arg else idEq u.real arg ∧ idEq u.eff arg := by
  by_cases hpos : arg > 0
  · refine both_sets hpos (fun (hperm : idEq u.eff arg ∨ idEq u.real arg ∨ u.eff = 0) => ?_)
      (fun hperm => if_pos ⟨hpos, hperm⟩) (fun h => .inr (.inr h)) ?_
    · have hsecond : idEq u.real arg ∨ idEq u.eff arg ∨ u.eff = 0 := by tauto
      unfold setreuid
      rw [if_neg (fun h => h.2 hperm)]
      simp only [if_pos hpos]
      rw [if_pos hsecond]
    · rintro (he | he | he)
      · exact .inl (isId_of_idEq he)
      · exact .inl (isId_of_idEq he)
      · exact .inr he
  · refine both_ignored hpos ?_ _
    unfold setreuid
    rw [if_neg (fun h => hpos h.1)]
    simp [if_neg hpos]

theorem setregid_sets {suser : Bool} :
    SetsBoth (setregid suser arg arg u) arg ↔ if arg > 0 then suser = true →
      IsId arg else idEq u.real arg ∧ idEq u.eff arg := by
  by_cases hpos : arg > 0
  · refine both_sets hpos (fun (hperm : idEq u.real arg ∨ suser = true) => ?_)
      (fun hperm => if_pos ⟨hpos, hperm⟩) .inr (Or.imp_left isId_of_idEq)
    -- the second test finds the id that has just been stored
    have hsecond : idEq (ushort arg) arg ∨ idEq u.eff arg ∨ idEq u.saved arg ∨ suser = true := by
      rcases hperm with he | he
      · exact .inl (idEq_ushort.mpr (isId_of_idEq he))
      · exact .inr (.inr (.inr he))
    unfold setregid
    rw [if_neg (fun h => h.2 hperm)]
    simp only [if_pos hpos]
    rw [if_pos hsecond]
  · refine both_ignored hpos ?_ _
    unfold setregid
    rw [if_neg (fun h => hpos h.1)]
    simp [if_neg hpos]

/-- Only a process with real id 0 gets an id past the check that does not fit. -/
def SetresOk (real eff saved : Int32) (u : Ids) : Prop :=
  ¬ (real < -1 ∨ eff < -1 ∨ saved < -1) → u.real = 0 → (real ≠ -1 → IsId real) ∧
    (eff ≠ -1 → IsId eff) ∧ (saved ≠ -1 → IsId saved)

theorem setres_sets {real eff saved : Int32} :
    SetsGiven (setres real eff saved u) real eff saved ↔ SetresOk real eff saved u := by
  rcases setres_cases real eff saved u with ⟨hneg, hrun⟩ | ⟨v, hv, hrun⟩
  · rw [hrun]
    exact ⟨fun _ h h0 => absurd (hneg h0) h, fun _ h => absurd h (failed_sets rfl)⟩
  have hstored : SetsGiven (setres real eff saved u) real eff saved ↔
      (real ≠ -1 → IsId real) ∧ (eff ≠ -1 → IsId eff) ∧ (saved ≠ -1 → IsId saved) := by
    rw [hrun]
    simp only [SetsGiven, true_implies, ← idEq_ushort]
    refine and_congr (imp_congr_right fun h => ?_)
      (and_congr (imp_congr_right fun h => ?_) (imp_congr_right fun h => ?_))
    · rw [hv.realIs, if_pos h]
    · rw [hv.effIs, if_pos h]
    · rw [hv.savedIs, if_pos h]
  refine hstored.trans ⟨fun h _ _ => h, fun h => ?_⟩
  by_cases hroot : u.real = 0
  · exact h hv.given hroot
  · obtain ⟨h1, h2, h3⟩ := hv.own hroot
    exact ⟨fun h => (h1 h).elim isId_of_idEq isId_of_idEq,
      fun h => (h2 h).elim isId_of_idEq isId_of_idEq, fun h => isId_of_idEq (h3 h)⟩

end

/-- When a call that returns 0 has set the ids: `setuid` and `setgid` by a superuser with an
    argument that is positive and fits, or without effect where the ids are the argument already;
    `setresuid` and `setresgid` by a process with real id 0 with arguments that fit. -/
theorem ids_set_iff (u : Ids) :
    (∀ uid, SetsBoth (sysSetuid uid u) uid ↔ if uid > 0 then u.eff = 0 →
      IsId uid else idEq u.real uid ∧ idEq u.eff uid) ∧
    (∀ suser gid, SetsBoth (sysSetgid suser gid u) gid ↔ if gid > 0 then suser = true →
      IsId gid else idEq u.real gid ∧ idEq u.eff gid) ∧
    ∀ real eff saved,
      (SetsGiven (sysSetresuid real eff saved u) real eff saved ↔ SetresOk real eff saved u) ∧
      (SetsGiven (sysSetresgid real eff saved u) real eff saved ↔ SetresOk real eff saved u) :=
  ⟨fun _ => setreuid_sets, fun _ _ => setregid_sets, fun _ _ _ => ⟨setres_sets, setres_sets⟩⟩

/-- `setuid(65536)` leaves a superuser one, and `setuid(0)` does nothing for another user; both
    return 0. -/
theorem setuid_without_effect : sysSetuid 65536 ⟨0, 0, 0⟩ = (0, ⟨0, 0, 0⟩) ∧
    sysSetuid 0 ⟨1000, 1000, 1000⟩ = (0, ⟨1000, 1000, 1000⟩) := by
  decide

end Micro86.Creds
