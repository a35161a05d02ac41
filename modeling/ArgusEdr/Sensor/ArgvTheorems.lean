import ArgusEdr.Decode.WireTheorems
import ArgusEdr.Lib.CString
import ArgusEdr.Sensor.Programs

/-!
# The arguments of a program

`handle_execve` packs the arguments into a buffer and the decoder takes them apart again.
`decoded_argv`: what comes out are the arguments that got in, the empty ones left out. The loop of
the sensor is followed by `packArgs_take`: what it has written so far is a packed list.
-/

namespace ArgusEdr.Sensor

open CString (packed fields cut)
open List hiding Vector
open Go (Bytes)

theorem stringRead_of_notMem {arg : Bytes} (h : 0 ∉ arg) (size : ℕ) :
    stringRead size arg = arg.take (size - 1) := by
  have htext : arg.takeWhile (· != 0) = arg := by
    apply takeWhile_eq_self_iff.mpr
    intro b hb
    exact bne_iff_ne.mpr fun hzero => h (hzero ▸ hb)
  rw [stringRead, htext]

variable {off : ℕ} {argv : List Bytes}

theorem take_writeStr {n : ℕ} (buf : Vector UInt8 n) {size : ℕ} (src : Bytes)
    (h : off + (stringRead size src).length < n) :
    (writeStr buf off size src).toList.take (off + ((stringRead size src).length + 1)) =
      buf.toList.take off ++ stringRead size src ++ [0] := by
  apply ext_getElem
  · simp
    omega
  · intro i hi hi'
    have hoff : off ≤ n := by omega
    simp only [length_append, length_take, Vector.length_toList, Nat.min_eq_left hoff,
      length_singleton] at hi'
    simp only [getElem_take, Vector.getElem_toList, writeStr, Vector.getElem_ofFn,
      getElem_append, length_take, length_append, Vector.length_toList,
      Nat.min_eq_left hoff]
    -- before the copy, in it, or its terminator
    by_cases hbefore : i < off
    · rw [if_pos (.inl hbefore), dif_pos (by omega), dif_pos hbefore]
      rfl
    · rw [if_neg (by omega)]
      by_cases hin : i < off + (stringRead size src).length
      · rw [dif_pos hin, dif_neg hbefore, getElem?_eq_getElem (by omega)]
        rfl
      · rw [dif_neg hin, getElem?_eq_none (by omega)]
        simp

theorem packArgs_take (hargv : ∀ arg ∈ argv, 0 ∉ arg) (rounds : ℕ) (data : Vector UInt8 512)
    (hoff : off ≤ 512) :
    (packArgs rounds argv data off).2 ≤ 512 ∧
      (packArgs rounds argv data off).1.toList.take (packArgs rounds argv data off).2 =
        data.toList.take off ++ packed (cut (511 - off) (argv.take rounds)) := by
  induction rounds generalizing argv data off with
  | zero => simp [packArgs, hoff, cut, packed]
  | succ rounds ih =>
    cases argv with
    | nil => simp [packArgs, hoff, cut, packed]
    | cons arg argv =>
      rw [forall_mem_cons] at hargv
      rw [packArgs, maxArgsLen]
      split
      · next hfull =>
        have hroom : 511 - off = 0 := by omega
        rw [hroom, CString.cut_zero]
        simp [hoff, packed]
      · next hfull =>
        have hmask : off &&& (512 - 1) = off := by
          have hmod : off &&& (512 - 1) = off % 512 := Nat.and_two_pow_sub_one_eq_mod off 9
          omega
        have hread : stringRead (512 - off) arg = arg.take (511 - off) := by
          rw [stringRead_of_notMem hargv.1, show 512 - off - 1 = 511 - off by omega]
        have hlen : (arg.take (511 - off)).length = min (511 - off) arg.length := length_take
        have hnext : off + ((stringRead (512 - off) arg).length + 1) ≤ 512 := by
          rw [hread]
          omega
        simp only [hmask]
        obtain ⟨hle, htake⟩ := ih hargv.2 (writeStr data off (512 - off) arg) hnext
        refine ⟨hle, ?_⟩
        rw [htake, take_writeStr data arg (by rw [hread]; omega), hread, take_succ_cons, cut,
          if_neg (by omega), CString.packed_cons]
        have hroom : 511 - (off + ((arg.take (511 - off)).length + 1)) =
            511 - off - (arg.length + 1) := by omega
        rw [hroom]
        simp

theorem captureArgv_take (hargv : ∀ arg ∈ argv, 0 ∉ arg) :
    (captureArgv argv).data.toList.take (captureArgv argv).len.toNat =
      packed (cut 511 (argv.take 32)) := by
  obtain ⟨hle, htake⟩ := packArgs_take hargv 32 (Vector.replicate 512 0) (Nat.zero_le 512)
  have hlen : (captureArgv argv).len.toNat =
      (packArgs 32 argv (Vector.replicate 512 0) 0).2 := by
    rw [captureArgv, maxArgvCount]
    exact UInt32.toNat_ofNat_of_lt' (hle.trans_lt (by norm_num))
  rw [hlen]
  exact htake

theorem argv_captured (hargv : ∀ arg ∈ argv, 0 ∉ arg) (e : Decode.KernelEvent) :
    ({ e with args := (captureArgv argv).data, argsLen := (captureArgv argv).len } :
      Decode.KernelEvent).argv = (cut 511 (argv.take 32)).filter (· ≠ []) := by
  have hzero : ∀ s ∈ cut 511 (argv.take 32), 0 ∉ s :=
    CString.notMem_of_mem_cut fun arg harg => hargv arg (mem_of_mem_take harg)
  rw [← CString.fields_packed hzero, ← captureArgv_take hargv]
  rfl

theorem handleExec_captured {cache : ArgvCache} {current : Task}
    (hroom : current.id ∈ cache ∨ cache.size < argvCacheMax) (argv : List Bytes) (m : Moment)
    (filename : Bytes) :
    (handleExec (handleExecve cache current argv) m current filename).2 =
      { newEvent m current eventExec with
        filename := writeStr (Vector.replicate 256 0) 0 256 filename
        args := (captureArgv argv).data
        argsLen := (captureArgv argv).len } := by
  rw [handleExecve, if_pos hroom, handleExec, Std.ExtTreeMap.getElem?_insert_self]
  rfl

/-- Decoding the captured arguments gives the non-empty ones of those that got in: of the first 32,
as many as 511 bytes hold with their terminators, the last one cut to the bytes that are left. -/
theorem decoded_argv {argv : List Bytes} (hargv : ∀ arg ∈ argv, 0 ∉ arg) :
    Decode.parseArgs (captureArgv argv).data.toList (captureArgv argv).len =
        (cut 511 (argv.take 32)).filter (· ≠ []) ∧
      ∀ (cache : ArgvCache) (current : Task) (m : Moment) (filename : Bytes)
        (env : Decode.Environment) (d : Decode.Decoder),
        current.id ∈ cache ∨ cache.size < argvCacheMax →
          ∃ event, d.decode env
              (((handleExec (handleExecve cache current argv) m current filename).2.members
                env.order).flatMap Layout.Member.bytes) = .ok event ∧
            event.process.args = (cut 511 (argv.take 32)).filter (· ≠ []) := by
  constructor
  · let e : Decode.KernelEvent :=
      { type := eventExec, args := (captureArgv argv).data, argsLen := (captureArgv argv).len }
    exact (Decode.parseArgs_eq_argv e).trans (argv_captured hargv e)
  · intro cache current m filename env d hroom
    refine ⟨_, Decode.decode_members d _, ?_⟩
    rw [handleExec_captured hroom]
    exact argv_captured hargv
      { newEvent m current eventExec with
        filename := writeStr (Vector.replicate 256 0) 0 256 filename }

theorem decoded_argv_ls :
    Decode.parseArgs (captureArgv [Go.ascii "ls", [], Go.ascii "-l"]).data.toList
        (captureArgv [Go.ascii "ls", [], Go.ascii "-l"]).len = [Go.ascii "ls", Go.ascii "-l"] :=
  (decoded_argv (by decide)).1.trans (by decide)

end ArgusEdr.Sensor
