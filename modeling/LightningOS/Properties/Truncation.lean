import LightningOS.Properties.Numbers
import Mathlib.Data.List.GetD

/-!
# Formatting into a buffer

`ksnprintf` puts the text that `kprintf` emits into a buffer, as much of it as fits, and a NUL
behind it. The position in the buffer counts on past its end, and with a text of 2^32 bytes or
more it comes back to zero, where `pos + 1 < size` holds although `pos` is far behind the end.
-/

namespace LightningOS.Printf

open ByteMemory CString

variable {strAt : UInt32 → List UInt8} {mem : Memory} {size pos : UInt32} {log : List Nat}
  {out : List UInt8} {c : UInt8}

/-- The buffer has the start of the text, as much of it as fits, and a NUL. Nothing was written
outside of it. -/
structure Truncated (out : List UInt8) (size : UInt32) (mem : Memory) (log : List Nat) : Prop where
  text : ∀ i < min out.length (size.toNat - 1), mem i = out.getD i 0
  nul : mem (min out.length (size.toNat - 1)) = 0
  inside : ∀ i ∈ log, i < size.toNat

/-! ## Up to the last position -/

/-- The buffer after `out`. -/
structure Filled (out : List UInt8) (size : UInt32) (mem : Memory) (pos : UInt32)
    (log : List Nat) : Prop where
  pos : pos.toNat = out.length
  text : ∀ i < out.length, i + 1 < size.toNat → mem i = out.getD i 0
  inside : ∀ i ∈ log, i < size.toNat

theorem Filled.nil (size : UInt32) (mem : Memory) : Filled [] size mem 0 [] :=
  ⟨rfl, fun _ h => absurd h (Nat.not_lt_zero _), fun _ h => absurd h List.not_mem_nil⟩

theorem getD_concat_lt {i : Nat} (h : i < out.length) : (out ++ [c]).getD i 0 = out.getD i 0 :=
  List.getD_append out [c] 0 i h

theorem getD_concat_length : (out ++ [c]).getD out.length 0 = c := by
  rw [List.getD_append_right _ _ _ _ (Nat.le_refl _), Nat.sub_self]
  rfl

theorem toNat_succ {v : UInt32} (h : v.toNat + 1 < 4294967296) : (v + 1).toNat = v.toNat + 1 := by
  have hone : (1 : UInt32).toNat = 1 := rfl
  rw [UInt32.toNat_add, hone]
  omega

/-- **One byte more.** -/
theorem Filled.putc (h : Filled out size mem pos log) (hlen : out.length + 1 < 4294967296) :
    ∃ mem' pos' log', sinkPutc (.buffer mem size pos log) c = .buffer mem' size pos' log' ∧
      Filled (out ++ [c]) size mem' pos' log' := by
  have hpos := h.pos
  have hsucc : (pos + 1).toNat = out.length + 1 := by
    rw [toNat_succ (by omega), hpos]
  have hlen' : (out ++ [c]).length = out.length + 1 := List.length_append
  have hroom : pos + 1 < size ↔ out.length + 1 < size.toNat := by
    rw [UInt32.lt_iff_toNat_lt, hsucc]
  rw [sinkPutc]
  by_cases hin : out.length + 1 < size.toNat
  · refine ⟨_, _, _, if_pos (hroom.mpr hin),
      ⟨by rw [hsucc, hlen'], fun i hi _ => ?_, fun i hi => ?_⟩⟩
    · rw [hlen'] at hi
      by_cases hlast : i = out.length
      · rw [hlast, hpos, store8_same, getD_concat_length]
      · rw [store8_other (by omega), getD_concat_lt (by omega)]
        exact h.text i (by omega) (by omega)
    · rcases List.mem_cons.mp hi with rfl | hi
      · omega
      · exact h.inside i hi
  · refine ⟨_, _, _, if_neg (fun hlt => hin (hroom.mp hlt)), ⟨by rw [hsucc, hlen'],
      fun i hi hfit => ?_, h.inside⟩⟩
    rw [hlen'] at hi
    rw [getD_concat_lt (by omega)]
    exact h.text i (by omega) hfit

/-- **A text that the position can count.** -/
theorem Filled.puts (more : List UInt8) : ∀ {out : List UInt8} {mem : Memory} {pos : UInt32}
    {log : List Nat}, Filled out size mem pos log → out.length + more.length < 4294967296 →
      ∃ mem' pos' log', sinkPuts (.buffer mem size pos log) more = .buffer mem' size pos' log' ∧
        Filled (out ++ more) size mem' pos' log' := by
  induction more with
  | nil =>
    intro out mem pos log h _
    exact ⟨mem, pos, log, rfl, by rwa [List.append_nil]⟩
  | cons c more ih =>
    intro out mem pos log h hlen
    rw [List.length_cons] at hlen
    obtain ⟨mem₁, pos₁, log₁, hput, h₁⟩ := h.putc (c := c) (by omega)
    obtain ⟨mem', pos', log', hputs, h'⟩ := ih h₁ (by
      rw [List.length_append, List.length_singleton]
      omega)
    refine ⟨mem', pos', log', ?_, by rwa [← List.append_cons] at h'⟩
    rw [← hputs, ← hput]
    rfl

/-- **The end of the text.** -/
theorem Filled.terminate (h : Filled out size mem pos log) (hsize : size ≠ 0) :
    ∃ mem' log', Printf.terminate (.buffer mem size pos log) = .buffer mem' size pos log' ∧
      Truncated out size mem' log' := by
  have hpos := h.pos
  have hpositive : 0 < size.toNat := Nat.pos_of_ne_zero fun h0 => hsize (UInt32.toNat_inj.mp h0)
  have hlast : (size - 1).toNat = size.toNat - 1 := by
    have hle : (1 : UInt32) ≤ size := UInt32.le_iff_toNat_le.mpr hpositive
    rw [UInt32.toNat_sub_of_le _ _ hle]
    rfl
  have hplace : (if pos < size then pos else size - 1).toNat = min out.length (size.toNat - 1) := by
    by_cases hin : pos < size
    · have hlt := UInt32.lt_iff_toNat_lt.mp hin
      rw [if_pos hin]
      omega
    · have hle : ¬pos.toNat < size.toNat := fun hlt => hin (UInt32.lt_iff_toNat_lt.mpr hlt)
      rw [if_neg hin, hlast]
      omega
  refine ⟨_, _, if_neg hsize, ⟨fun i hi => ?_, ?_, fun i hi => ?_⟩⟩
  · rw [hplace, store8_other (by omega)]
    exact h.text i (by omega) (by omega)
  · rw [hplace, store8_same]
  · rcases List.mem_cons.mp hi with rfl | hi
    · rw [hplace]
      omega
    · exact h.inside i hi

/-! ## Past the last position -/

/-- What was written stays written. -/
theorem sinkPutc_log (mem : Memory) (size pos : UInt32) (log : List Nat) (c : UInt8) :
    ∃ mem' pos' log', sinkPutc (.buffer mem size pos log) c = .buffer mem' size pos' log' ∧
      ∀ i ∈ log, i ∈ log' := by
  rw [sinkPutc]
  by_cases hin : pos + 1 < size
  · exact ⟨_, _, _, if_pos hin, fun i hi => List.mem_cons_of_mem _ hi⟩
  · exact ⟨_, _, _, if_neg hin, fun i hi => hi⟩

theorem sinkPuts_log (more : List UInt8) : ∀ (mem : Memory) (size pos : UInt32) (log : List Nat),
    ∃ mem' pos' log', sinkPuts (.buffer mem size pos log) more = .buffer mem' size pos' log' ∧
      ∀ i ∈ log, i ∈ log' := by
  induction more with
  | nil => exact fun mem size pos log => ⟨mem, pos, log, rfl, fun _ hi => hi⟩
  | cons c more ih =>
    intro mem size pos log
    obtain ⟨mem₁, pos₁, log₁, hput, h₁⟩ := sinkPutc_log mem size pos log c
    obtain ⟨mem', pos', log', hputs, h'⟩ := ih mem₁ size pos₁ log₁
    refine ⟨mem', pos', log', ?_, fun i hi => h' i (h₁ i hi)⟩
    rw [← hputs, ← hput]
    rfl

theorem terminate_log (mem : Memory) (size pos : UInt32) (log : List Nat) :
    ∃ mem' log', terminate (.buffer mem size pos log) = .buffer mem' size pos log' ∧
      ∀ i ∈ log, i ∈ log' := by
  by_cases hsize : size = 0
  · exact ⟨_, _, if_pos hsize, fun i hi => hi⟩
  · exact ⟨_, _, if_neg hsize, fun i hi => List.mem_cons_of_mem _ hi⟩

/-- The last position is written to: the position behind it is zero. -/
theorem putc_last (h : Filled out size mem pos log) (hsize : size ≠ 0)
    (hlen : out.length = 4294967295) : ∃ mem' log',
      sinkPutc (.buffer mem size pos log) c = .buffer mem' size (pos + 1) (4294967295 :: log') := by
  have hpos : pos = 4294967295 := UInt32.toNat_inj.mp (h.pos.trans hlen)
  have hwrap : pos + 1 < size := by
    rw [hpos]
    exact UInt32.pos_iff_ne_zero.mpr hsize
  refine ⟨store8 mem pos.toNat c, log, ?_⟩
  rw [sinkPutc, if_pos hwrap, hpos]
  rfl

/-- **A text that the position cannot count is written outside of the buffer.** -/
theorem sinkPuts_outside (mem : Memory) (hsize : size ≠ 0) (hlen : 4294967296 ≤ out.length) :
    ∃ mem' pos' log', sinkPuts (.buffer mem size 0 []) out = .buffer mem' size pos' log' ∧
      4294967295 ∈ log' := by
  have htake : (out.take 4294967295).length = 4294967295 := by
    rw [List.length_take]
    omega
  obtain ⟨c, more, hdrop⟩ : ∃ c more, out.drop 4294967295 = c :: more := by
    refine List.exists_cons_of_ne_nil fun hnil => ?_
    have hzero := congrArg List.length hnil
    rw [List.length_drop, List.length_nil] at hzero
    omega
  obtain ⟨mem₁, pos₁, log₁, hputs, hfilled⟩ := (Filled.nil size mem).puts (out.take 4294967295) (by
    rw [htake]
    decide)
  rw [List.nil_append] at hfilled
  obtain ⟨mem₂, log₂, hput⟩ := putc_last (c := c) hfilled hsize htake
  obtain ⟨mem', pos', log', hmore, hkeep⟩ :=
    sinkPuts_log more mem₂ size (pos₁ + 1) (4294967295 :: log₂)
  refine ⟨mem', pos', log', ?_, hkeep _ List.mem_cons_self⟩
  calc sinkPuts (.buffer mem size 0 []) out
      = sinkPuts (.buffer mem size 0 []) (out.take 4294967295 ++ c :: more) := by
        rw [← hdrop, List.take_append_drop]
    _ = sinkPuts (sinkPutc (.buffer mem₁ size pos₁ log₁) c) more := by
        rw [sinkPuts_append, hputs]
        rfl
    _ = .buffer mem' size pos' log' := by rw [hput, hmore]

/-! ## The two functions -/

theorem sinkPuts_console (more : List UInt8) : ∀ out : List UInt8,
    sinkPuts (.console out) more = .console (out ++ more) := by
  induction more with
  | nil =>
    intro out
    rw [List.append_nil]
    rfl
  | cons c more ih =>
    intro out
    rw [List.append_cons]
    exact ih (out ++ [c])

/-- The buffer at the end, for a text of any length. -/
theorem terminate_sinkPuts (mem : Memory) (hsize : size ≠ 0) (out : List UInt8) :
    ∃ mem' pos log, terminate (sinkPuts (.buffer mem size 0 []) out) = .buffer mem' size pos log ∧
      (Truncated out size mem' log ↔ out.length < 4294967296) := by
  by_cases hlen : out.length < 4294967296
  · obtain ⟨mem₁, pos₁, log₁, hputs, hfilled⟩ := (Filled.nil size mem).puts out (by
      rw [List.length_nil]
      omega)
    obtain ⟨mem', log', hend, htrunc⟩ := hfilled.terminate hsize
    rw [List.nil_append] at htrunc
    exact ⟨mem', pos₁, log', by rw [hputs, hend], iff_of_true htrunc hlen⟩
  · obtain ⟨mem₁, pos₁, log₁, hputs, hlast⟩ := sinkPuts_outside mem hsize (Nat.not_lt.mp hlen)
    obtain ⟨mem', log', hend, hkeep⟩ := terminate_log mem₁ size pos₁ log₁
    refine ⟨mem', pos₁, log', by rw [hputs, hend], iff_of_false (fun htrunc => ?_) hlen⟩
    have hin := htrunc.inside _ (hkeep _ hlast)
    have hlt := size.toNat_lt
    omega

/-- **A buffer gets the start of the console's text, exactly when the position can count it.** -/
theorem ksnprintf_truncates_iff (strAt : UInt32 → List UInt8) (mem : Memory) {size : UInt32}
    (hsize : size ≠ 0) {fmt : List UInt8} (h0 : 0 ∉ fmt) (hun : ¬Unfinished fmt)
    (args : Nat → UInt32) : ∃ out mem' pos log,
      kprintf strAt fmt args = some (.console out) ∧
      ksnprintf strAt mem size fmt args = some (.buffer mem' size pos log) ∧
      (Truncated out size mem' log ↔ out.length < 4294967296) := by
  obtain ⟨out, hout⟩ := format_finished strAt fmt.length (Nat.le_refl _) h0 hun args
  obtain ⟨mem', pos, log, hbuf, hiff⟩ := terminate_sinkPuts mem hsize out
  refine ⟨out, mem', pos, log, ?_, ?_, hiff⟩
  · rw [kprintf, hout, sinkPuts_console, List.nil_append]
  · rw [ksnprintf, hout, Option.map_some, hbuf]

/-- The first three bytes of a five byte number. -/
theorem ksnprintf_truncates_iff_number : ∃ mem' pos log,
    kprintf (fun _ => []) (ofString "%5d") (fun _ => 7) = some (.console (ofString "    7")) ∧
    ksnprintf (fun _ => []) (fun _ => 255) 4 (ofString "%5d") (fun _ => 7) =
      some (.buffer mem' 4 pos log) ∧ Truncated (ofString "    7") 4 mem' log := by
  have hun : ¬Unfinished (ofString "%5d") := by
    have hsome :
        (format (fun _ => []) (.console []) (ofString "%5d" ++ [0]) fun _ => 7).isSome := by
      decide +kernel
    exact not_unfinished (by decide) hsome
  have hsize : (4 : UInt32) ≠ 0 := by decide
  have hseven : (kprintf (fun _ => []) (ofString "%5d") fun _ => 7).map (fun s =>
      Sink.casesOn (motive := fun _ => List UInt8) s id fun _ _ _ _ => []) =
        some (ofString "    7") := by
    decide +kernel
  obtain ⟨out, mem', pos, log, hout, hbuf, hiff⟩ :=
    ksnprintf_truncates_iff (fun _ => []) (fun _ => 255) hsize (by decide) hun (fun _ => 7)
  rw [hout, Option.map_some, Option.some.injEq] at hseven
  obtain rfl : out = ofString "    7" := hseven
  exact ⟨mem', pos, log, hout, hbuf, hiff.mpr (by decide)⟩

/-! ## A text of 2^32 bytes -/

/-- The largest width that fits into an `int`. -/
def widthLargest : Flags where
  left := false
  zero := false
  digits := ofString "2147483647"
  isDigits := List.all_eq_true.mp rfl
  lead := by decide

def widthTwo : Flags where
  left := false
  zero := false
  digits := [ch '2']
  isDigits := List.all_eq_true.mp rfl
  lead := by decide

/-- A zero fills its width. -/
theorem format_zero (strAt : UInt32 → List UInt8) (f : Flags) (hpos : 0 < f.width)
    (hwidth : f.width < 2147483648) :
    ∃ text : List UInt8, text.length = f.width ∧ ∀ (s : Sink) (rest : List UInt8),
      format strAt s (ch '%' :: (f.bytes ++ NumConv.d.char :: rest)) (fun _ => 0) =
        format strAt (sinkPuts s text) rest fun _ => 0 := by
  have hsign : NumConv.d.sign 0 = [] := rfl
  have hdigits : (NumConv.d.digits 0).length = 1 := rfl
  have hcount : padCount (NumConv.d.digits 0) f.spec.width = f.width - 1 :=
    hdigits ▸ padCount_eq (by rw [hdigits]; decide) hwidth
  refine ⟨padText (NumConv.d.digits 0) f.spec.width f.spec.pad f.spec.left, ?_, fun s rest => ?_⟩
  · rw [length_padText, hcount, hdigits]
    omega
  · rw [format_flags (before_number f .d rest) (by decide), convert_number, emitPadded_eq, hsign]
    rfl

theorem format_largest (strAt : UInt32 → List UInt8) : ∃ out : List UInt8,
    out.length = 4294967296 ∧ ∀ s : Sink,
      format strAt s (ofString "%2147483647d%2147483647d%2d" ++ [0]) (fun _ => 0) =
        some (sinkPuts s out) := by
  have hfmt : ofString "%2147483647d%2147483647d%2d" ++ [0] =
      ch '%' :: (widthLargest.bytes ++ NumConv.d.char ::
        ch '%' :: (widthLargest.bytes ++ NumConv.d.char ::
          ch '%' :: (widthTwo.bytes ++ NumConv.d.char :: [0]))) := by
    decide
  have hlargest : widthLargest.width = 2147483647 := by decide
  have htwo : widthTwo.width = 2 := by decide
  obtain ⟨a, ha, hfa⟩ := format_zero strAt widthLargest
    (by rw [hlargest]; decide) (by rw [hlargest]; decide)
  obtain ⟨b, hb, hfb⟩ := format_zero strAt widthTwo
    (by rw [htwo]; decide) (by rw [htwo]; decide)
  refine ⟨a ++ (a ++ b), ?_, fun s => ?_⟩
  · rw [List.length_append, List.length_append, ha, hb, hlargest, htwo]
  · rw [hfmt, hfa, hfa, hfb, format_end, sinkPuts_append, sinkPuts_append]

/-- The text has 2^32 bytes, and one of them is written behind a buffer of 16. -/
theorem ksnprintf_outside : 0 ∉ ofString "%2147483647d%2147483647d%2d" ∧
    ¬Unfinished (ofString "%2147483647d%2147483647d%2d") ∧
    ∃ mem' pos log,
      ksnprintf (fun _ => []) (fun _ => 0) 16 (ofString "%2147483647d%2147483647d%2d")
        (fun _ => 0) = some (.buffer mem' 16 pos log) ∧ ∀ out, ¬Truncated out 16 mem' log := by
  have h0 : 0 ∉ ofString "%2147483647d%2147483647d%2d" := by decide
  obtain ⟨out, hlen, hout⟩ := format_largest fun _ => []
  have hsome := congrArg Option.isSome (hout (.console []))
  have hsize : (16 : UInt32) ≠ 0 := by decide
  obtain ⟨mem₁, pos₁, log₁, hputs, hlast⟩ :=
    sinkPuts_outside (fun _ => 0) hsize (Nat.le_of_eq hlen.symm)
  obtain ⟨mem', log', hend, hkeep⟩ := terminate_log mem₁ 16 pos₁ log₁
  refine ⟨h0, not_unfinished h0 hsome, mem', pos₁, log', ?_, fun out htrunc => ?_⟩
  · rw [ksnprintf, hout, Option.map_some, hputs, hend]
  · exact absurd (htrunc.inside _ (hkeep _ hlast)) (by decide)

end LightningOS.Printf
