import Mathlib.Data.List.Infix
import Mathlib.Tactic

/-!
# Hooks - the status flags of a descriptor

This module embeds `FDEntity::init` (`src/fdmanager.cc`) and the cases of the hooked
`fcntl` and `ioctl` (`src/hook.cc`) that deal with `O_NONBLOCK`.  A managed socket is
always to be non-blocking for the kernel, and what the user asked for is kept in its
entity.  The original calls set in the kernel what they are asked to set.

`ioctl` notes what the user asked for and then hands the request on as it is: with a
zero the kernel flag is cleared.

Main results:

- Theorem `run_report`: what `F_GETFL` reports is what the user asked for, in every
  sequence of calls.
- Theorem `nonblock_kept_iff`: the kernel flag stays set exactly when no `FIONBIO`
  with a zero is among the calls.
-/

namespace Tiger
namespace Hook

/-! ## Flags -/

/-- The status flags of a file, an `int`. -/
abbrev Flags := BitVec 32

/-- `O_NONBLOCK` -/
def oNonblock : Flags := 0x800

/-- `flags & O_NONBLOCK`, as a truth value. -/
def hasNonblock (flags : Flags) : Bool := flags &&& oNonblock != 0

/-- `O_NONBLOCK` is one bit. -/
theorem hasNonblock_eq (flags : Flags) : hasNonblock flags = flags.getLsbD 11 := by
  have htwo : oNonblock = BitVec.twoPow 32 11 := by decide
  rw [hasNonblock, htwo, BitVec.and_twoPow]
  cases flags.getLsbD 11 with
  | false => simp
  | true => decide

@[simp] theorem hasNonblock_set (flags : Flags) : hasNonblock (flags ||| oNonblock) = true := by
  have hbit : oNonblock.getLsbD 11 = true := by decide
  rw [hasNonblock_eq, BitVec.getLsbD_or, hbit, Bool.or_true]

/-- Clearing the flag clears it. -/
@[simp] theorem hasNonblock_clear (flags : Flags) :
    hasNonblock (flags &&& ~~~oNonblock) = false := by
  have hbit : (~~~oNonblock).getLsbD 11 = false := by decide
  rw [hasNonblock_eq, BitVec.getLsbD_and, hbit, Bool.and_false]

/-- The flags without `O_NONBLOCK`. -/
def others (flags : Flags) : Flags := flags &&& ~~~oNonblock

@[simp] theorem others_set (flags : Flags) : others (flags ||| oNonblock) = others flags := by
  have hzero : oNonblock &&& ~~~oNonblock = 0#32 := BitVec.and_not_self oNonblock
  rw [others, others, BitVec.and_or_distrib_right, hzero, BitVec.or_zero]

@[simp] theorem others_clear (flags : Flags) : others (flags &&& ~~~oNonblock) = others flags := by
  rw [others, others, BitVec.and_assoc, BitVec.and_self]

/-! ## Entities -/

/-- The members of `FDEntity` that the flags depend on. -/
structure FDEntity where
  isInit : Bool
  isSysNonblock : Bool
  isUserNonblock : Bool
  isSocket : Bool
  isClosed : Bool
deriving DecidableEq

/-- A descriptor: what `get_fd` returns for it, and its flags in the kernel. -/
structure Descriptor where
  entity : Option FDEntity
  kernel : Flags
deriving DecidableEq

/-- `FDEntity::init()` of a new entity.  `isSock` is what `fstat` says, `none` when it
fails. -/
def FDEntity.init (isSock : Option Bool) (kernel : Flags) : Descriptor :=
  let isSocket := isSock.getD false
  ⟨some ⟨isSock.isSome, isSocket, false, isSocket, false⟩,
    if isSocket && !hasNonblock kernel then kernel ||| oNonblock else kernel⟩

/-- `!fd_entity || !fd_entity->is_socket() || fd_entity->is_closed()` -/
def unmanaged : Option FDEntity → Bool
  | none => true
  | some e => !e.isSocket || e.isClosed

/-! ## Calls -/

/-- The calls with their arguments. -/
inductive Call
  /-- `fcntl(fd, F_SETFL, arg)` -/
  | setfl (arg : Flags)
  /-- `fcntl(fd, F_GETFL)` -/
  | getfl
  /-- `ioctl(fd, FIONBIO, &v)` -/
  | fionbio (v : BitVec 32)
deriving DecidableEq

/-- `set_user_nonblock` -/
def FDEntity.setUserNonblock (e : FDEntity) (flag : Bool) : FDEntity :=
  { e with isUserNonblock := flag }

/-- `fcntl` with `F_SETFL` -/
def fcntlSetfl (d : Descriptor) (arg : Flags) : Descriptor :=
  match d.entity with
  | none => { d with kernel := arg }
  | some e =>
      if unmanaged (some e) then { d with kernel := arg }
      else
        let e := e.setUserNonblock (hasNonblock arg)
        -- the source has `!O_NONBLOCK`, which is zero
        let arg := if e.isSysNonblock then arg ||| oNonblock else arg &&& 0
        ⟨some e, arg⟩

/-- `fcntl` with `F_GETFL` -/
def fcntlGetfl (d : Descriptor) : Flags :=
  match d.entity with
  | none => d.kernel
  | some e =>
      if unmanaged (some e) then d.kernel
      else if e.isUserNonblock then d.kernel ||| oNonblock else d.kernel &&& ~~~oNonblock

/-- The original `ioctl` with `FIONBIO`. -/
def ioctlF (kernel : Flags) (v : BitVec 32) : Flags :=
  if v ≠ 0 then kernel ||| oNonblock else kernel &&& ~~~oNonblock

/-- `ioctl` with `FIONBIO` -/
def ioctlFionbio (d : Descriptor) (v : BitVec 32) : Descriptor :=
  match d.entity with
  | none => { d with kernel := ioctlF d.kernel v }
  | some e =>
      if unmanaged (some e) then { d with kernel := ioctlF d.kernel v }
      else ⟨some (e.setUserNonblock (decide (v ≠ 0))), ioctlF d.kernel v⟩

/-- One call. -/
def step (d : Descriptor) : Call → Descriptor
  | .setfl arg => fcntlSetfl d arg
  | .getfl => d
  | .fionbio v => ioctlFionbio d v

/-- Calls one after the other. -/
def run (d : Descriptor) (calls : List Call) : Descriptor := calls.foldl step d

/-! ## What the user asked for -/

/-- What the user sees: whether the last request asked for `O_NONBLOCK`, and the other
flags. -/
structure View where
  asked : Bool
  flags : Flags

/-- A call changes what the user asked for. -/
def View.step (u : View) : Call → View
  | .setfl arg => ⟨hasNonblock arg, others arg⟩
  | .getfl => u
  | .fionbio v => { u with asked := decide (v ≠ 0) }

/-- Before any request. -/
def View.init (kernel : Flags) : View := ⟨false, others kernel⟩

/-- The view behind calls. -/
def View.run (u : View) (calls : List Call) : View := calls.foldl View.step u

/-- The entity of a managed socket keeps what the user asked for, and the kernel the
other flags. -/
structure Tracks (d : Descriptor) (u : View) : Prop where
  entity_eq : ∃ isInit, d.entity = some ⟨isInit, true, u.asked, true, false⟩
  others_eq : others d.kernel = u.flags

/-- A new descriptor tracks a new view. -/
theorem init_tracks (kernel : Flags) :
    Tracks (FDEntity.init (some true) kernel) (View.init kernel) where
  entity_eq := ⟨true, rfl⟩
  others_eq := by
    simp only [FDEntity.init, Option.getD_some, Bool.true_and]
    split
    · exact others_set kernel
    · rfl

/-- `ioctl` keeps the other flags. -/
theorem ioctlF_others (kernel : Flags) (v : BitVec 32) :
    others (ioctlF kernel v) = others kernel := by
  rw [ioctlF]
  split
  · exact others_set kernel
  · exact others_clear kernel

/-- A call keeps the descriptor tracking the view. -/
theorem step_tracks {d : Descriptor} {u : View} (h : Tracks d u) (c : Call) :
    Tracks (step d c) (u.step c) := by
  rcases h.entity_eq with ⟨isInit, he⟩
  cases c with
  | setfl arg =>
      have hstep : fcntlSetfl d arg =
          ⟨some ⟨isInit, true, hasNonblock arg, true, false⟩, arg ||| oNonblock⟩ := by
        rw [fcntlSetfl, he]
        rfl
      rw [step, hstep]
      exact ⟨⟨isInit, rfl⟩, others_set arg⟩
  | getfl => exact h
  | fionbio v =>
      have hstep : ioctlFionbio d v =
          ⟨some ⟨isInit, true, decide (v ≠ 0), true, false⟩, ioctlF d.kernel v⟩ := by
        rw [ioctlFionbio, he]
        rfl
      rw [step, hstep]
      exact ⟨⟨isInit, rfl⟩, (ioctlF_others _ _).trans h.others_eq⟩

/-- Calls keep the descriptor tracking the view. -/
theorem run_tracks {d : Descriptor} {u : View} (h : Tracks d u) (calls : List Call) :
    Tracks (run d calls) (u.run calls) := by
  induction calls generalizing d u with
  | nil => exact h
  | cons c calls ih => exact ih (step_tracks h c)

/-- `F_GETFL` reports the view. -/
theorem Tracks.getfl {d : Descriptor} {u : View} (h : Tracks d u) :
    hasNonblock (fcntlGetfl d) = u.asked ∧ others (fcntlGetfl d) = u.flags := by
  rcases h.entity_eq with ⟨isInit, he⟩
  have hget : fcntlGetfl d =
      if u.asked then d.kernel ||| oNonblock else d.kernel &&& ~~~oNonblock := by
    rw [fcntlGetfl, he]
    rfl
  rw [hget]
  cases u.asked with
  | true => exact ⟨hasNonblock_set _, (others_set _).trans h.others_eq⟩
  | false => exact ⟨hasNonblock_clear _, (others_clear _).trans h.others_eq⟩

/-- What `F_GETFL` reports is what the user asked for, in every sequence of calls. -/
theorem run_report (kernel : Flags) (calls : List Call) :
    hasNonblock (fcntlGetfl (run (FDEntity.init (some true) kernel) calls)) =
        ((View.init kernel).run calls).asked ∧
      others (fcntlGetfl (run (FDEntity.init (some true) kernel) calls)) =
        ((View.init kernel).run calls).flags :=
  (run_tracks (init_tracks kernel) calls).getfl

/-! ## The kernel flag -/

/-- The requests that clear the kernel flag. -/
def Call.clears : Call → Bool
  | .fionbio v => v == 0
  | _ => false

/-- A new socket is non-blocking in the kernel. -/
theorem init_nonblock (kernel : Flags) :
    hasNonblock (FDEntity.init (some true) kernel).kernel = true := by
  simp only [FDEntity.init, Option.getD_some, Bool.true_and]
  cases hflag : hasNonblock kernel with
  | true => simpa using hflag
  | false => simp

/-- A call leaves the kernel flag set, or clears it, whatever it was before. -/
theorem step_nonblock {d : Descriptor} {u : View} (h : Tracks d u)
    (hflag : hasNonblock d.kernel = true) (c : Call) :
    hasNonblock (step d c).kernel = !c.clears := by
  rcases h.entity_eq with ⟨isInit, he⟩
  cases c with
  | setfl arg =>
      have hstep : (fcntlSetfl d arg).kernel = arg ||| oNonblock := by
        rw [fcntlSetfl, he]
        rfl
      rw [step, hstep, hasNonblock_set]
      rfl
  | getfl => exact hflag
  | fionbio v =>
      have hstep : (ioctlFionbio d v).kernel = ioctlF d.kernel v := by
        rw [ioctlFionbio, he]
        rfl
      rw [step, hstep, ioctlF, Call.clears]
      by_cases hv : v = 0
      · rw [if_neg (not_not.mpr hv), hasNonblock_clear, hv]
        rfl
      · rw [if_pos hv, hasNonblock_set, beq_eq_false_iff_ne.mpr hv]
        rfl

/-- Calls that do not clear the kernel flag leave it set. -/
theorem run_nonblock {d : Descriptor} {u : View} (h : Tracks d u)
    (hflag : hasNonblock d.kernel = true) {calls : List Call}
    (hcalls : ∀ c ∈ calls, c.clears = false) : hasNonblock (run d calls).kernel = true := by
  induction calls generalizing d u with
  | nil => exact hflag
  | cons c calls ih =>
      have hfirst := step_nonblock h hflag c
      rw [hcalls c List.mem_cons_self, Bool.not_false] at hfirst
      exact ih (step_tracks h c) hfirst fun c' hc' => hcalls c' (List.mem_cons_of_mem _ hc')

/-- Behind every call of a sequence the kernel flag of the socket is set, and `F_GETFL`
reports what the user asked for. -/
def StaysNonblock (kernel : Flags) (calls : List Call) : Prop :=
  ∀ before, before <+: calls →
    hasNonblock (run (FDEntity.init (some true) kernel) before).kernel = true ∧
      hasNonblock (fcntlGetfl (run (FDEntity.init (some true) kernel) before)) =
        ((View.init kernel).run before).asked ∧
      others (fcntlGetfl (run (FDEntity.init (some true) kernel) before)) =
        ((View.init kernel).run before).flags

/-- A socket with any flags, and any sequence of calls: the kernel flag stays set
exactly when no `FIONBIO` with a zero is among the calls. -/
theorem nonblock_kept_iff (kernel : Flags) (calls : List Call) :
    StaysNonblock kernel calls ↔ ∀ v, Call.fionbio v ∈ calls → v ≠ 0 := by
  have htracks := init_tracks kernel
  have hinit := init_nonblock kernel
  constructor
  · rintro hstays v hmem rfl
    rcases List.append_of_mem hmem with ⟨before, after, rfl⟩
    have hlast := (hstays (before ++ [.fionbio 0]) ⟨after, by simp⟩).1
    have hbefore := (hstays before ⟨.fionbio 0 :: after, rfl⟩).1
    have hclear := step_nonblock (run_tracks htracks before) hbefore (.fionbio 0)
    rw [run, List.foldl_append] at hlast
    rw [run] at hclear
    exact absurd (hlast.symm.trans hclear) (by decide)
  · intro hcalls before hbefore
    refine ⟨run_nonblock htracks hinit ?_, run_report kernel before⟩
    intro c hc
    cases c with
    | fionbio v => exact beq_eq_false_iff_ne.mpr (hcalls v (hbefore.subset hc))
    | setfl arg => rfl
    | getfl => rfl

/-- A user who asks for a blocking socket gets one. -/
theorem nonblock_kept_fails : ¬ StaysNonblock 0 [.fionbio 0] := by
  intro hstays
  have hflag := (hstays [.fionbio 0] List.prefix_rfl).1
  exact absurd hflag (by decide)

end Hook
end Tiger
