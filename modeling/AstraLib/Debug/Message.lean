import AstraLib.Debug.Stream

/-!
# `debugMessage`: one call after the other

`include/AstraLib/Debug/debugFunc.hpp`: a message is a sequence of insertions into `std::cout`.  The
first ones are the thread id and the time, the last ones the arguments.  `debugMessage` sets the
width and the fill character for the microseconds, and nothing else: base and adjustment are what
earlier arguments have made of them, and so are the width and the fill character for the first
string.  `Agree` says when two formats make no difference.
-/

namespace AstraLib.Debug

/-- A call: the id of its thread, the time that it has got from the clock, in nanoseconds
since the epoch, and its arguments. -/
structure Call where
  tid : ℕ
  now : ℕ
  args : List Insertion

/-- `duration_cast<microseconds>(now.time_since_epoch()) % 1'000'000`. -/
def Call.nowUs (c : Call) : ℕ := c.now / 1000 % 1000000

/-- `"ThreadID (TID): "`. -/
def threadIdText : List Char := "ThreadID (TID): ".toList

/-- The insertions that follow the first string. `hms` is `%H:%M:%S` of the local time, as a
function of the seconds since the epoch. -/
def Call.stamp (hms : ℕ → List Char) (c : Call) : List Insertion :=
  [number c.tid, text "[".toList, raw (hms (c.now / 1000000000)), text ".".toList, setw 6,
   setfill '0', number c.nowUs, text "] [Debug] ".toList]

/-- All the insertions of a call. -/
def Call.insertions (hms : ℕ → List Char) (c : Call) : List Insertion :=
  text threadIdText :: c.stamp hms ++ c.args ++ [raw ['\n']]

/-- `debugMessage`, while it holds the lock. -/
def debugMessage (hms : ℕ → List Char) (c : Call) : Insertion := emit (c.insertions hms)

/-- The format that a sequence of calls leaves. -/
def formatAfter (hms : ℕ → List Char) (cs : List Call) : Format :=
  cs.foldl (fun f c => (debugMessage hms c f).1) .default

/-- No message tells the one format from the other. The first string has 16 characters. -/
def Agree (f g : Format) : Prop :=
  f.base = g.base ∧ f.adjust = g.adjust ∧
  (f.width ≤ 16 ∧ g.width ≤ 16 ∨ f.width = g.width ∧ f.fill = g.fill)

/-- The format in which the arguments are written. -/
def Format.shown (f : Format) : Format := { f with fill := '0', width := 0 }

section Line

variable {hms : ℕ → List Char} {c : Call}

/-- The characters of the stamp. -/
def Call.stampText (hms : ℕ → List Char) (c : Call) (f : Format) : List Char :=
  Nat.toDigits f.base.radix c.tid ++ "[".toList ++ hms (c.now / 1000000000) ++ ".".toList ++
    pad { f with fill := '0', width := 6 } (Nat.toDigits f.base.radix c.nowUs) ++
    "] [Debug] ".toList

theorem emit_stamp {f : Format} (hf : f.width = 0) :
    emit (c.stamp hms) f = (f.shown, c.stampText hms f) := by
  obtain ⟨base, adjust, fill, width⟩ := f
  obtain rfl : width = 0 := hf
  simp [Call.stamp, emit_cons, text, number, raw, setw, setfill, Format.shown, Call.stampText]

/-- The first string depends on the whole format, everything after it on base and adjustment. -/
theorem debugMessage_eq (hms : ℕ → List Char) (c : Call) (f : Format) : debugMessage hms c f =
    ((emit c.args f.shown).1,
      pad f threadIdText ++ (c.stampText hms f.shown ++ (emit c.args f.shown).2 ++ ['\n'])) := by
  have hstamp : emit (c.stamp hms) { f with width := 0 } = (f.shown, c.stampText hms f.shown) :=
    emit_stamp rfl
  simp only [debugMessage, Call.insertions, List.cons_append, List.append_assoc, emit_cons,
    emit_append, text, hstamp, raw, emit_nil, List.append_nil]

theorem Agree.shown_eq {f g : Format} (h : Agree f g) : f.shown = g.shown := by
  rw [Format.shown, Format.shown, h.1, h.2.1]

theorem length_threadIdText : threadIdText.length = 16 := by decide

/-- An argument that shows the base and the adjustment in which it is written. -/
def probe : Insertion := fun f =>
  (f, [match f.base with | .oct => 'o' | .dec => 'd' | .hex => 'x',
    match f.adjust with | .left => 'l' | .right => 'r' | .internal => 'i'])

theorem eq_of_probe_eq {f g : Format} (h : (probe f).2 = (probe g).2) :
    f.base = g.base ∧ f.adjust = g.adjust := by
  simp only [probe, List.cons.injEq, and_true] at h
  constructor
  · cases hf : f.base <;> cases hg : g.base <;> simp_all
  · cases hf : f.adjust <;> cases hg : g.adjust <;> simp_all

/-- **When the format makes no difference.** -/
theorem debugMessage_eq_iff_agree (hms : ℕ → List Char) (f g : Format) :
    (∀ c, (debugMessage hms c f).2 = (debugMessage hms c g).2) ↔ Agree f g := by
  constructor
  · intro h
    have hprobe := h ⟨0, 0, [probe]⟩
    simp only [debugMessage_eq] at hprobe
    -- the characters of the probe are the last ones before the end of the line
    have hlast : (probe f.shown).2 = (probe g.shown).2 := by
      have htake := congrArg (fun cs => (cs.reverse.take 3).reverse) hprobe
      simpa [emit_cons, probe] using htake
    obtain ⟨hbase, hadjust⟩ : f.base = g.base ∧ f.adjust = g.adjust := eq_of_probe_eq hlast
    have hshown : f.shown = g.shown := by rw [Format.shown, Format.shown, hbase, hadjust]
    rw [hshown] at hprobe
    have hpad := List.append_cancel_right hprobe
    rw [pad_eq_pad_iff hadjust, length_threadIdText] at hpad
    exact ⟨hbase, hadjust, hpad⟩
  · intro h c
    have hpad : pad f threadIdText = pad g threadIdText := by
      rw [pad_eq_pad_iff h.2.1, length_threadIdText]
      exact h.2.2
    rw [debugMessage_eq, debugMessage_eq, h.shown_eq, hpad]

end Line

/-- **When a message depends on its own call only.** After two sequences of calls, every call writes
the same line if and only if base and adjustment of `std::cout` are the same after both, and width
and fill character are, too, or the widths are too small to matter for the first string. -/
theorem same_line_iff (hms : ℕ → List Char) (cs cs' : List Call) :
    (∀ c, (debugMessage hms c (formatAfter hms cs)).2 =
      (debugMessage hms c (formatAfter hms cs')).2) ↔
      Agree (formatAfter hms cs) (formatAfter hms cs') :=
  debugMessage_eq_iff_agree hms _ _

/-- `%H:%M:%S` during the first second of the day. -/
def midnight (_ : ℕ) : List Char := "00:00:00".toList

/-- Two sequences of one call, which differ in its argument: none, or `std::hex`. The next call
writes its microseconds in the base that it finds. -/
theorem line_after_hex : ∃ (hms : ℕ → List Char) (cs cs' : List Call) (c : Call),
    cs.map (fun c => (c.tid, c.now)) = cs'.map (fun c => (c.tid, c.now)) ∧
    (debugMessage hms c (formatAfter hms cs)).2 =
      "ThreadID (TID): 1[00:00:00.000010] [Debug] \n".toList ∧
    (debugMessage hms c (formatAfter hms cs')).2 =
      "ThreadID (TID): 1[00:00:00.00000a] [Debug] \n".toList ∧
    (debugMessage hms c (formatAfter hms cs)).2 ≠ (debugMessage hms c (formatAfter hms cs')).2 := by
  refine ⟨midnight, [⟨1, 0, []⟩], [⟨1, 0, [setBase .hex]⟩], ⟨1, 10000, []⟩, ?_⟩
  decide +kernel

end AstraLib.Debug
