import Tiger.Http.Connection

/-!
# HTTP - the size line of a chunk

What the response parser does with a size line: the machine on hexadecimal
digits and a line end, the value that `strtol` reads, and the call of the parser
on a buffer that holds a whole line.

Main results:

- Theorem `execute_line`: a whole line is read, and its number is the size.
- Theorem `execute_digits`: digits alone are read, and the machine goes on.
- Theorem `execute_stuck`: the machine has no way to start on a line end.
-/

namespace Tiger
namespace Http

open Lib.Ragel Lib.Ragel.Expr

namespace ResponseGrammar

/-- The machine behind a digit of a size line. -/
def afterDigit : List E :=
  [finishing 28 .done (cat (prioAll 2 0 (cat (leaving 22 .chunkSize (star (chars xdigit)))
    chunkExtension)) (prioStart 2 1 CRLF))]

/-- The machine behind the carriage return of a size line. -/
def afterReturn : List E := [finishing 28 .done (lit ['\n'])]

/-- The hexadecimal digits. -/
def xdigits : List UInt8 :=
  [48, 49, 50, 51, 52, 53, 54, 55, 56, 57, 65, 66, 67, 68, 69, 70, 97, 98, 99, 100, 101, 102]

/-- A hexadecimal digit is one of the list. -/
theorem mem_xdigits {c : UInt8} (h : xdigit.mem c = true) : c ∈ xdigits := by
  have hall : ∀ n < 256, xdigit.mem (UInt8.ofNat n) = true → UInt8.ofNat n ∈ xdigits := by
    decide +kernel
  have hc := hall c.toNat c.toNat_lt
  rw [UInt8.ofNat_toNat] at hc
  exact hc h

/-- What holds of every digit holds of a digit. -/
theorem xdigit_cases {p : UInt8 → Bool} (hall : xdigits.all p = true) {c : UInt8}
    (h : xdigit.mem c = true) : p c = true :=
  List.all_eq_true.mp hall c (mem_xdigits h)

/-- A digit starts a size line. -/
theorem step_main_xdigit {c : UInt8} (h : xdigit.mem c = true) :
    step (start main) c = some ([.mark], afterDigit) := by
  have hall :
      xdigits.all (fun c => decide (step (start main) c = some ([.mark], afterDigit))) = true := by
    decide
  exact of_decide_eq_true (xdigit_cases hall h)

/-- A digit goes on in a size line. -/
theorem step_afterDigit_xdigit {c : UInt8} (h : xdigit.mem c = true) :
    step afterDigit c = some ([], afterDigit) := by
  have hall : xdigits.all (fun c => decide (step afterDigit c = some ([], afterDigit))) = true := by
    decide
  exact of_decide_eq_true (xdigit_cases hall h)

theorem step_afterDigit_return : step afterDigit 13 = some ([.chunkSize], afterReturn) := by
  decide

theorem step_afterReturn_newline : step afterReturn 10 = some ([.done], [.eps]) := by
  decide

/-- A size line does not start with a line end. -/
theorem step_main_lineEnd {c : UInt8} (h : c = 13 ∨ c = 10) : step (start main) c = none := by
  rcases h with rfl | rfl
  · decide
  · decide

end ResponseGrammar

/-! ## The number -/

open ResponseGrammar

theorem digitValue_lt {c : UInt8} (h : xdigit.mem c = true) : digitValue c < 16 := by
  have hall : xdigits.all (fun c => decide (digitValue c < 16)) = true := by decide
  exact of_decide_eq_true (xdigit_cases hall h)

/-- A digit is no blank, no sign, no mark of a hexadecimal number and no NUL. -/
theorem xdigit_plain {c : UInt8} (h : xdigit.mem c = true) :
    isSpace c = false ∧ c ≠ 45 ∧ c ≠ 43 ∧ c ≠ 120 ∧ c ≠ 88 ∧ c ≠ 0 := by
  have hall : xdigits.all (fun c => decide (isSpace c = false ∧ c ≠ 45 ∧ c ≠ 43 ∧ c ≠ 120 ∧
      c ≠ 88 ∧ c ≠ 0)) = true := by
    decide
  exact of_decide_eq_true (xdigit_cases hall h)

/-- Digits in front of a line end are not changed by `skipHexMark`. -/
theorem skipHexMark_digits {ds rest : Text} (h : ∀ c ∈ ds, xdigit.mem c = true) :
    skipHexMark 16 (ds ++ 13 :: rest) = ds ++ 13 :: rest := by
  match ds, h with
  | [], _ => simp [skipHexMark]
  | [a], _ =>
      rw [List.singleton_append]
      unfold skipHexMark
      split
      next hcons =>
        cases hcons
        rw [if_neg (by simp)]
      next => rfl
  | a :: x :: ds, h =>
      have hx := xdigit_plain (h x (by simp))
      rw [List.cons_append, List.cons_append]
      unfold skipHexMark
      split
      next hcons =>
        rw [List.cons.injEq, List.cons.injEq] at hcons
        rw [if_neg (by rw [← hcons.2.1]; simp [hx]), hcons.1, hcons.2.1, hcons.2.2]
      next => rfl

/-- The digits of a size line end at the carriage return. -/
theorem takeWhile_digits {ds rest : Text} (h : ∀ c ∈ ds, xdigit.mem c = true) :
    (ds ++ 13 :: rest).takeWhile (fun c => decide (digitValue c < 16)) = ds := by
  have hds : ∀ c ∈ ds, decide (digitValue c < 16) = true :=
    fun c hc => decide_eq_true (digitValue_lt (h c hc))
  have hstop : decide (digitValue 13 < 16) = false := by decide
  rw [List.takeWhile_append_of_pos hds, List.takeWhile_cons, if_neg (by rw [hstop]; simp),
    List.append_nil]

/-- `strtol` reads the digits in front of a line end. -/
theorem strtol_digits {ds rest : Text} (hne : ds ≠ []) (h : ∀ c ∈ ds, xdigit.mem c = true)
    (hlt : digitsValue 16 ds < 2 ^ 63) : strtol 16 (ds ++ 13 :: rest) = digitsValue 16 ds := by
  have hplain : strtolDigits 16 false (ds ++ 13 :: rest) = digitsValue 16 ds := by
    rw [strtolDigits, skipHexMark_digits h, takeWhile_digits h]
    simp only [Bool.false_eq_true, if_false]
    omega
  cases ds with
  | nil => exact absurd rfl hne
  | cons d ds =>
      have hd := xdigit_plain (h d List.mem_cons_self)
      rw [← hplain, strtol, List.cons_append, List.dropWhile_cons, if_neg (by simp [hd.1])]
      split
      next hcons => exact absurd (List.cons.inj hcons).1 hd.2.1
      next hcons => exact absurd (List.cons.inj hcons).1 hd.2.2.1
      next => rfl

/-- The C string at the start of a buffer with a size line. -/
theorem cString_digits {m : Memory} {len : Nat} {ds rest : Text}
    (hm : slice m 0 len = ds ++ 13 :: rest)
    (h : ∀ c ∈ ds, xdigit.mem c = true) : ∃ rest', cString m 0 len = ds ++ 13 :: rest' := by
  have hds : ∀ c ∈ ds, (c != 0) = true := fun c hc => by
    simpa using (xdigit_plain (h c hc)).2.2.2.2.2
  refine ⟨rest.takeWhile (· != 0), ?_⟩
  rw [cString, Nat.sub_zero, hm, List.takeWhile_append_of_pos hds, List.takeWhile_cons,
    if_pos (by decide)]

/-! ## The machine -/

namespace HTTPResponseParser

variable {m : Memory} {length p n : Nat} {ps : HTTPResponseParser}

/-- A step without the action `done` goes on behind its byte. -/
theorem exec_step {threads threads' : List E} {as : List ResponseAction} {ps' : HTTPResponseParser}
    (hcs : ps.cs = some threads) (hstep : step threads (m p) = some (as, threads'))
    (hacts : acts m length p as { ps with cs := some threads' } = some ps')
    (hdone : as.contains .done = false) :
    exec m length (n + 1) p ps = exec m length n (p + 1) ps' := by
  simp only [exec, hcs, hstep, hacts, hdone, Option.bind_some, Bool.false_eq_true, if_false]

/-- The machine stays where it is on more digits. -/
theorem exec_digits {ds : Text} (hcs : ps.cs = some afterDigit) (hm : slice m p ds.length = ds)
    (h : ∀ c ∈ ds, xdigit.mem c = true) :
    exec m length (ds.length + n) p ps = exec m length n (p + ds.length) ps := by
  induction ds generalizing p with
  | nil => simp
  | cons d ds ih =>
      rw [List.length_cons, slice, List.cons.injEq] at hm
      have hstep : step afterDigit (m p) = some ([], afterDigit) := by
        rw [hm.1]
        exact step_afterDigit_xdigit (h d List.mem_cons_self)
      have hlen : (d :: ds).length + n = (ds.length + n) + 1 := by
        rw [List.length_cons]
        omega
      have hacts : acts m length p [] { ps with cs := some afterDigit } = some ps := by
        rw [acts, ← hcs]
      rw [hlen, exec_step hcs hstep hacts rfl, ih hm.2 fun c hc => h c (List.mem_cons_of_mem _ hc),
        List.length_cons, Nat.add_assoc, Nat.add_comm 1]

/-- The parser behind the digits of a line. -/
def afterDigits (ps : HTTPResponseParser) : HTTPResponseParser :=
  { ps.reinit with cs := some afterDigit }

/-- The machine from its start on digits. -/
theorem exec_start_digits {ds : Text} (hm : slice m 0 ds.length = ds) (hne : ds ≠ [])
    (h : ∀ c ∈ ds, xdigit.mem c = true) :
    exec m length (ds.length + n) 0 ps.reinit = exec m length n ds.length ps.afterDigits := by
  cases ds with
  | nil => exact absurd rfl hne
  | cons d ds =>
      rw [List.length_cons, slice, List.cons.injEq] at hm
      have hstep : step (start main) (m 0) = some ([.mark], afterDigit) := by
        rw [hm.1]
        exact step_main_xdigit (h d List.mem_cons_self)
      have hlen : (d :: ds).length + n = (ds.length + n) + 1 := by
        rw [List.length_cons]
        omega
      have hacts : acts m length 0 [.mark] { ps.reinit with cs := some afterDigit } =
          some ps.afterDigits := by
        simp only [acts, act, Option.bind_some]
        rfl
      have hcs : ps.reinit.cs = some (start main) := by rw [reinit]
      have hcs' : ps.afterDigits.cs = some afterDigit := by rw [afterDigits]
      rw [hlen, exec_step hcs hstep hacts rfl,
        exec_digits hcs' hm.2 fun c hc => h c (List.mem_cons_of_mem _ hc),
        List.length_cons, Nat.zero_add, Nat.add_comm 1]

/-- The parser behind the carriage return of a line with the number `v`. -/
def afterSize (ps : HTTPResponseParser) (v : Int) : HTTPResponseParser :=
  { ps.reinit with
    cs := some afterReturn
    chunked := true
    contentLen := v
    chunksDone := decide (v ≤ 0) }

/-- The parser behind a line with the number `v`. -/
def afterLine (ps : HTTPResponseParser) (v : Int) (lineLen : Nat) : HTTPResponseParser :=
  { ps.afterSize v with
    cs := some [.eps]
    bodyStart := lineLen
    nread := lineLen }

@[simp] theorem afterLine_hasError (ps : HTTPResponseParser) (v : Int) (lineLen : Nat) :
    (ps.afterLine v lineLen).hasError = ps.error := by
  simp [hasError, afterLine, afterSize, reinit]

@[simp] theorem afterLine_isFinished (ps : HTTPResponseParser) (v : Int) (lineLen : Nat) :
    (ps.afterLine v lineLen).isFinished = true := by
  simp [isFinished, afterLine]

@[simp] theorem afterLine_contentLen (ps : HTTPResponseParser) (v : Int) (lineLen : Nat) :
    (ps.afterLine v lineLen).contentLen = v := rfl

@[simp] theorem afterLine_chunksDone (ps : HTTPResponseParser) (v : Int) (lineLen : Nat) :
    (ps.afterLine v lineLen).chunksDone = decide (v ≤ 0) := rfl

@[simp] theorem afterLine_data (ps : HTTPResponseParser) (v : Int) (lineLen : Nat) :
    (ps.afterLine v lineLen).data = ps.data := rfl

/-- The carriage return behind the digits sets the size. -/
theorem exec_return (hreturn : m p = 13) :
    exec m length (n + 1) p ps.afterDigits =
      exec m length n (p + 1) (ps.afterSize (toInt32 (strtol 16 (cString m 0 length)))) := by
  have hcs : ps.afterDigits.cs = some afterDigit := by rw [afterDigits]
  have hsize : acts m length p [.chunkSize] { ps.afterDigits with cs := some afterReturn } =
      some (ps.afterSize (toInt32 (strtol 16 (cString m 0 length)))) := by
    simp only [acts, act, Option.bind_some]
    rfl
  have hstep := step_afterDigit_return
  rw [← hreturn] at hstep
  exact exec_step hcs hstep hsize rfl

/-- The newline behind it ends the line. -/
theorem exec_newline {v : Int} (hnewline : m p = 10) :
    exec m length (n + 1) p (ps.afterSize v) =
      some (p + 1, { ps.afterLine v (p + 1) with nread := 0 }) := by
  have hstep := step_afterReturn_newline
  rw [← hnewline] at hstep
  have hcs : (ps.afterSize v).cs = some afterReturn := by rw [afterSize]
  rw [exec, hcs]
  simp only [hstep, acts, act, Option.bind_some]
  rfl

/-! ## Calls of the parser -/

/-- A call for a size line, when the machine has run and the checks hold. -/
theorem execute_ok {ps' : HTTPResponseParser} (hend : m length = 0)
    (hexec : exec m length length 0 ps.reinit = some (p, ps')) (hp : ps'.nread + p ≤ length)
    (hbody : ps'.bodyStart ≤ length) (hmark : ps'.mark < length) (hfield : ps'.fieldLen ≤ length)
    (hstart : ps'.fieldStart < length) :
    execute m length true ps = .ok (ps'.nread + p, { ps' with nread := ps'.nread + p },
      memmove m (ps'.nread + p) (length - (ps'.nread + p))) := by
  rw [execute, if_neg (by simp [hend])]
  simp only [if_true, hexec]
  rw [if_neg (by simp [hp, hbody]), if_neg (by simp [hmark, hfield, hstart])]

/-- A whole line is read, and its number is the size. -/
theorem execute_line {ds rest : Text} (hend : m length = 0)
    (hm : slice m 0 length = ds ++ 13 :: 10 :: rest) (hne : ds ≠ [])
    (h : ∀ c ∈ ds, xdigit.mem c = true) (hlt : digitsValue 16 ds < 2 ^ 31) :
    execute m length true ps =
      .ok (ds.length + 2, ps.afterLine (digitsValue 16 ds) (ds.length + 2),
        memmove m (ds.length + 2) (length - (ds.length + 2))) := by
  have hlen : length = ds.length + (rest.length + 2) := by
    have hlength := congrArg List.length hm
    simp at hlength
    omega
  have hdigits : slice m 0 ds.length = ds := by
    rw [hlen, slice_add] at hm
    exact (List.append_inj hm (by simp)).1
  have htail : slice m ds.length (rest.length + 2) = 13 :: 10 :: rest := by
    rw [hlen, slice_add, Nat.zero_add] at hm
    exact (List.append_inj hm (by simp)).2
  rw [slice, slice, List.cons.injEq, List.cons.injEq] at htail
  have hvalue : toInt32 (strtol 16 (cString m 0 length)) = digitsValue 16 ds := by
    rcases cString_digits hm h with ⟨rest', hstring⟩
    rw [hstring, strtol_digits hne h (by omega), toInt32_of_lt hlt]
  have hexec : exec m length length 0 ps.reinit = some (ds.length + 2,
      { ps.afterLine (digitsValue 16 ds) (ds.length + 2) with nread := 0 }) := by
    have hrun : exec m length (ds.length + (rest.length + 2)) 0 ps.reinit = _ :=
      exec_start_digits hdigits hne h
    rw [← hlen] at hrun
    rw [hrun, exec_return htail.1, exec_newline htail.2.1, hvalue]
  have hcall := execute_ok hend hexec (by simp; omega) (by simp [afterLine]; omega)
    (by simp [afterLine, afterSize, reinit]; omega) (by simp [afterLine, afterSize, reinit])
    (by simp [afterLine, afterSize, reinit]; omega)
  rw [hcall]
  simp only [Nat.zero_add]
  rfl

/-- Digits alone are read, and the machine waits for more. -/
theorem execute_digits {ds : Text} (hend : m ds.length = 0) (hm : slice m 0 ds.length = ds)
    (hne : ds ≠ []) (h : ∀ c ∈ ds, xdigit.mem c = true) :
    execute m ds.length true ps =
      .ok (ds.length, { ps.afterDigits with nread := ds.length }, memmove m ds.length 0) := by
  have hpos : 0 < ds.length := List.length_pos_iff.mpr hne
  have hexec : exec m ds.length ds.length 0 ps.reinit = some (ds.length, ps.afterDigits) :=
    exec_start_digits (n := 0) hm hne h
  have hcall := execute_ok hend hexec (by simp [afterDigits, reinit])
    (by simp [afterDigits, reinit]) (by simpa [afterDigits, reinit] using hpos)
    (by simp [afterDigits, reinit]) (by simpa [afterDigits, reinit] using hpos)
  have hnread : ps.afterDigits.nread = 0 := by rw [afterDigits, reinit]
  rw [hcall, hnread, Nat.zero_add, Nat.sub_self]

/-- Digits and a carriage return are read, and the machine waits for the newline. -/
theorem execute_return {ds : Text} (hend : m (ds.length + 1) = 0)
    (hm : slice m 0 (ds.length + 1) = ds ++ [13]) (hne : ds ≠ [])
    (h : ∀ c ∈ ds, xdigit.mem c = true) :
    ∃ ps', execute m (ds.length + 1) true ps =
        .ok (ds.length + 1, ps', memmove m (ds.length + 1) 0) ∧
      ps'.cs = some afterReturn ∧ ps'.error = ps.error := by
  rw [slice_add, Nat.zero_add] at hm
  rcases List.append_inj hm (by simp) with ⟨hdigits, hlast⟩
  rw [slice, List.cons.injEq] at hlast
  have hexec : exec m (ds.length + 1) (ds.length + 1) 0 ps.reinit = _ :=
    exec_start_digits hdigits hne h
  rw [exec_return hlast.1, exec] at hexec
  have hcall := execute_ok hend hexec (by simp [afterSize, reinit]) (by simp [afterSize, reinit])
    (by simp [afterSize, reinit]) (by simp [afterSize, reinit]) (by simp [afterSize, reinit])
  simp only [afterSize, reinit, Nat.zero_add, Nat.sub_self] at hcall
  exact ⟨_, hcall, rfl, rfl⟩

/-- The machine has no way to start on a line end. -/
theorem execute_stuck (hend : m length = 0) (hpos : 0 < length) (h : m 0 = 13 ∨ m 0 = 10) :
    ∃ n ps' m', execute m length true ps = .ok (n, ps', m') ∧ ps'.cs = none := by
  rcases Nat.exists_eq_add_of_lt hpos with ⟨k, rfl⟩
  have hexec : exec m (0 + k + 1) (0 + k + 1) 0 ps.reinit =
      some (0, { ps.reinit with cs := none }) := by
    have hcs : ps.reinit.cs = some (start main) := by rw [reinit]
    rw [exec, hcs]
    simp only [step_main_lineEnd h]
  have hcall := execute_ok hend hexec (by simp [reinit]) (by simp [reinit]) (by simp [reinit])
    (by simp [reinit]) (by simp [reinit])
  exact ⟨_, _, _, hcall, rfl⟩

end HTTPResponseParser

end Http
end Tiger
