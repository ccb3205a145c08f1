import AstraLib.Debug.Message
import AstraLib.Interleaving.System

/-!
# `debugMessage`: many threads

Every insertion into `std::cout` is a step of its own.  The flag `writing` is taken by a
`compare_exchange_weak`, which may fail for no reason, and given back by a store; the time is read
before.  `Tidy` says what the flag is for: between the two, what has been written and the format of
the stream are those of one message that is under way.
-/

namespace AstraLib.Debug

open Interleaving

/-- Where a thread is. -/
inductive Pc
  | idle
  /-- before `system_clock::now()` -/
  | clock (args : List Insertion)
  /-- in the loop around `compare_exchange_weak` -/
  | lock (now : ℕ) (args : List Insertion)
  /-- with the flag, before the insertions `todo` -/
  | write (todo : List Insertion)

/-- The flag, the stream and the threads. -/
structure State (Tid : Type) where
  writing : Bool
  format : Format
  out : List Char
  pc : Tid → Pc

/-- The atomic steps. -/
inductive Micro
  /-- call of `debugMessage` -/
  | call (args : List Insertion)
  /-- the clock is read -/
  | now (t : ℕ)
  /-- `compare_exchange_weak` -/
  | cas (spurious : Bool)
  | insert
  /-- `writing.store(false)`, and the return -/
  | store

section Program

variable {Tid : Type} [DecidableEq Tid] (gettid : Tid → ℕ) (hms : ℕ → List Char)

/-- One atomic step of a thread. -/
def step (s : State Tid) : Tid × Micro → Option (State Tid)
  | (θ, a) =>
    match s.pc θ, a with
    | .idle, .call args => some { s with pc := Function.update s.pc θ (.clock args) }
    | .clock args, .now t => some { s with pc := Function.update s.pc θ (.lock t args) }
    | .lock t args, .cas spurious =>
        if s.writing = false ∧ spurious = false then
          some { s with
            writing := true
            pc := Function.update s.pc θ (.write (Call.insertions hms ⟨gettid θ, t, args⟩)) }
        else some s
    | .write (i :: todo), .insert =>
        some { s with
          format := (i s.format).1
          out := s.out ++ (i s.format).2
          pc := Function.update s.pc θ (.write todo) }
    | .write [], .store => some { s with writing := false, pc := Function.update s.pc θ .idle }
    | _, _ => none

/-- Nobody has written anything. -/
def fresh : State Tid := ⟨false, .default, [], fun _ => .idle⟩

/-- The arguments are plain values. -/
def PlainArgs (_ : State Tid) (a : Tid × Micro) : Prop :=
  ∀ args, a.2 = .call args → ∀ i ∈ args, Plain i

/-- Any number of threads that log plain values. -/
def system : System (State Tid) (Tid × Micro) :=
  (System.ofFun (· = fresh) (step gettid hms)).restrict PlainArgs

/-- The steps of the program, one constructor for each way a step can go. -/
inductive Step (s : State Tid) (θ : Tid) : Micro → State Tid → Prop
  | call (args : List Insertion) (h : s.pc θ = .idle) (hplain : ∀ i ∈ args, Plain i) :
      Step s θ (.call args) { s with pc := Function.update s.pc θ (.clock args) }
  | now (t : ℕ) (args : List Insertion) (h : s.pc θ = .clock args) :
      Step s θ (.now t) { s with pc := Function.update s.pc θ (.lock t args) }
  | acquire (t : ℕ) (args : List Insertion) (h : s.pc θ = .lock t args)
    (hfree : s.writing = false) :
      Step s θ (.cas false)
        { s with
          writing := true
          pc := Function.update s.pc θ (.write (Call.insertions hms ⟨gettid θ, t, args⟩)) }
  | retry (t : ℕ) (args : List Insertion) (spurious : Bool) (h : s.pc θ = .lock t args)
      (hfail : ¬ (s.writing = false ∧ spurious = false)) : Step s θ (.cas spurious) s
  | insert (i : Insertion) (todo : List Insertion) (h : s.pc θ = .write (i :: todo)) :
      Step s θ .insert
        { s with
          format := (i s.format).1
          out := s.out ++ (i s.format).2
          pc := Function.update s.pc θ (.write todo) }
  | store (h : s.pc θ = .write []) :
      Step s θ .store { s with writing := false, pc := Function.update s.pc θ .idle }

variable {gettid hms}

theorem step_of {s s' : State Tid} {θ : Tid} {a : Micro}
    (h : (system gettid hms).step s (θ, a) s') : Step gettid hms s θ a s' := by
  obtain ⟨hallow, hstep⟩ := h
  have hplain : ∀ args, a = .call args → ∀ i ∈ args, Plain i := hallow
  have hsome : step gettid hms s (θ, a) = some s' := hstep
  clear hallow hstep
  revert hsome
  unfold step
  dsimp only
  split
  case h_1 args hp => rintro ⟨⟩; exact .call args hp (hplain args rfl)
  case h_2 args t hp => rintro ⟨⟩; exact .now t args hp
  case h_3 t args spurious hp =>
    split_ifs with hfree
    · obtain ⟨hfree, rfl⟩ := hfree
      rintro ⟨⟩
      exact .acquire t args hp hfree
    · rintro ⟨⟩
      exact .retry t args spurious hp hfree
  case h_4 i todo hp => rintro ⟨⟩; exact .insert i todo hp
  case h_5 hp => rintro ⟨⟩; exact .store hp
  case h_6 => rintro ⟨⟩

end Program

/-! ### What is written -/

/-- The microseconds in six digits. -/
def Call.micros (c : Call) : List Char :=
  List.replicate (6 - (Nat.toDigits 10 c.nowUs).length) '0' ++ Nat.toDigits 10 c.nowUs

/-- The format in which plain arguments are written. -/
def plainFormat : Format := ⟨.dec, .right, '0', 0⟩

/-- A whole message. -/
def Call.message (hms : ℕ → List Char) (c : Call) : List Char :=
  threadIdText ++ Nat.toDigits 10 c.tid ++ "[".toList ++ hms (c.now / 1000000000) ++
  ".".toList ++ c.micros ++
    "] [Debug] ".toList ++ (c.args.flatMap fun i => (i plainFormat).2) ++ ['\n']

/-- **The microseconds have exactly six digits.** -/
theorem Call.micros_digits (c : Call) :
    c.micros.length = 6 ∧ ∀ ch ∈ c.micros, ch.isDigit = true := by
  have hlt : c.nowUs < 10 ^ 6 := Nat.mod_lt _ (by decide)
  have hlen : (Nat.toDigits 10 c.nowUs).length ≤ 6 :=
    Nat.toDigits_length 10 c.nowUs 6 (by decide) hlt
  constructor
  · rw [Call.micros, List.length_append, List.length_replicate]
    omega
  · intro ch hch
    rcases List.mem_append.1 hch with hzero | hdigit
    · rw [List.eq_of_mem_replicate hzero]
      decide
    · exact Nat.isDigit_of_mem_toDigits (by decide) (by decide) hdigit

/-- The format between two messages: the default, but for the fill character. -/
structure Calm (f : Format) : Prop where
  base : f.base = .dec
  adjust : f.adjust = .right
  width : f.width = 0

theorem Calm.shown_eq {f : Format} (h : Calm f) : f.shown = plainFormat := by
  rw [Format.shown, h.base, h.adjust]
  rfl

/-- A call with plain arguments writes its message, and leaves the format calm. -/
theorem Calm.debugMessage_eq {f : Format} (h : Calm f) (hms : ℕ → List Char) {c : Call}
    (hargs : ∀ i ∈ c.args, Plain i) : debugMessage hms c f = (plainFormat, c.message hms) := by
  rw [Debug.debugMessage_eq, h.shown_eq, emit_plain hargs rfl, pad_of_width_eq_zero h.width]
  simp [Call.stampText, Call.message, Call.micros, pad, plainFormat, Base.radix]

/-! ### One message at a time -/

/-- For each thread the arguments and the time of its last call, and the calls that
have been completed, in order. -/
structure Log (Tid : Type) where
  args : Tid → List Insertion
  time : Tid → ℕ
  completed : List Call

/-- Nothing has happened yet. -/
def Log.empty {Tid : Type} : Log Tid := ⟨fun _ => [], fun _ => 0, []⟩

/-- The call that a thread is in. -/
def Log.callOf {Tid : Type} (gettid : Tid → ℕ) (l : Log Tid) (θ : Tid) : Call :=
  ⟨gettid θ, l.time θ, l.args θ⟩

/-- The log after a step. -/
def note {Tid : Type} [DecidableEq Tid] (gettid : Tid → ℕ) (s : State Tid) (a : Tid × Micro)
    (l : Log Tid) : Log Tid :=
  match s.pc a.1, a.2 with
  | .idle, .call args => { l with args := Function.update l.args a.1 args }
  | .clock _, .now t => { l with time := Function.update l.time a.1 t }
  | .write [], .store => { l with completed := l.completed ++ [l.callOf gettid a.1] }
  | _, _ => l

/-- The thread has the flag. -/
def Pc.writes : Pc → Bool
  | .write _ => true
  | _ => false

/-- What a thread carries along is what it was called with and what it has read from the clock. -/
def Pc.Carries (args : List Insertion) (time : ℕ) : Pc → Prop
  | .idle | .write _ => True
  | .clock args' => args' = args
  | .lock time' args' => time' = time ∧ args' = args

section Tidy

variable {Tid : Type} (gettid : Tid → ℕ) (hms : ℕ → List Char)

/-- What has been written by the calls that are completed. -/
def Log.written (l : Log Tid) : List Char := l.completed.flatMap (Call.message hms)

/-- The invariant. -/
structure Tidy (s : State Tid) (l : Log Tid) : Prop where
  one : ∀ θ θ', (s.pc θ).writes = true → (s.pc θ').writes = true → θ = θ'
  flag : ∀ θ, (s.pc θ).writes = true → s.writing = true
  carries : ∀ θ, (s.pc θ).Carries (l.args θ) (l.time θ)
  plain : ∀ θ, ∀ i ∈ l.args θ, Plain i
  quiet : (∀ θ, (s.pc θ).writes = false) → Calm s.format ∧ s.out = l.written hms
  /-- the message under way has begun with a calm format -/
  busy : ∀ θ todo, s.pc θ = .write todo → ∃ (done : List Insertion) (f : Format), Calm f ∧
    done ++ todo = (l.callOf gettid θ).insertions hms ∧ s.format = (emit done f).1 ∧
    s.out = l.written hms ++ (emit done f).2

namespace Tidy

variable {gettid hms} {s : State Tid} {l : Log Tid} {θ : Tid}

theorem init : Tidy gettid hms (fresh : State Tid) Log.empty := by
  constructor
  · intro θ θ' h; cases h
  · intro θ h; cases h
  · intro θ; trivial
  · intro θ i hi; cases hi
  · intro _; exact ⟨⟨rfl, rfl, rfl⟩, rfl⟩
  · intro θ todo h; cases h

variable [DecidableEq Tid]

/-- A step of a thread that has not got the flag. -/
theorem frame (h : Tidy gettid hms s l) {p : Pc} {l' : Log Tid} (hold : (s.pc θ).writes = false)
    (hnew : p.writes = false) (hargs : ∀ θ' ≠ θ, l'.args θ' = l.args θ')
    (htime : ∀ θ' ≠ θ, l'.time θ' = l.time θ') (hcompleted : l'.completed = l.completed)
    (hcarries : p.Carries (l'.args θ) (l'.time θ)) (hplain : ∀ i ∈ l'.args θ, Plain i) :
    Tidy gettid hms { s with pc := Function.update s.pc θ p } l' := by
  have hwrites : ∀ θ', (Function.update s.pc θ p θ').writes = (s.pc θ').writes := by
    intro θ'
    by_cases heq : θ' = θ
    · rw [heq, Function.update_self, hold, hnew]
    · rw [Function.update_of_ne heq]
  have hwritten : l'.written hms = l.written hms := by rw [Log.written, hcompleted]; rfl
  constructor
  · intro θ₁ θ₂ h₁ h₂
    rw [hwrites] at h₁ h₂
    exact h.one θ₁ θ₂ h₁ h₂
  · intro θ' h'
    rw [hwrites] at h'
    exact h.flag θ' h'
  · intro θ'
    by_cases heq : θ' = θ
    · subst heq
      simpa using hcarries
    · simpa [Function.update_of_ne heq, hargs θ' heq, htime θ' heq] using h.carries θ'
  · intro θ'
    by_cases heq : θ' = θ
    · subst heq
      exact hplain
    · rw [hargs θ' heq]
      exact h.plain θ'
  · intro hnone
    rw [hwritten]
    exact h.quiet fun θ' => (hwrites θ').symm.trans (hnone θ')
  · intro θ' todo hp
    have heq : θ' ≠ θ := by
      rintro rfl
      have hp' : p = .write todo := by simpa using hp
      rw [hp'] at hnew
      cases hnew
    have hp' : s.pc θ' = .write todo := by simpa [Function.update_of_ne heq] using hp
    obtain ⟨done, f, hf⟩ := h.busy θ' todo hp'
    refine ⟨done, f, ?_⟩
    rw [hwritten, Log.callOf, hargs θ' heq, htime θ' heq]
    exact hf

/-- One thread has the flag, and its message is under way. -/
theorem hold (h : Tidy gettid hms s l) {s' : State Tid} {todo : List Insertion}
    (hpc : s'.pc = Function.update s.pc θ (.write todo)) (hwriting : s'.writing = true)
    (hothers : ∀ θ' ≠ θ, (s.pc θ').writes = false)
    (hbusy : ∃ (done : List Insertion) (f : Format), Calm f ∧
      done ++ todo = (l.callOf gettid θ).insertions hms ∧
      s'.format = (emit done f).1 ∧ s'.out = l.written hms ++ (emit done f).2) :
      Tidy gettid hms s' l := by
  have honly : ∀ θ', (s'.pc θ').writes = true → θ' = θ := by
    intro θ' hw
    by_contra hne
    rw [hpc, Function.update_of_ne hne, hothers θ' hne] at hw
    cases hw
  refine ⟨fun θ₁ θ₂ h₁ h₂ => ?_, fun _ _ => hwriting, fun θ' => ?_, h.plain, fun hall => ?_,
    fun θ' todo' hp => ?_⟩
  · exact (honly θ₁ h₁).trans (honly θ₂ h₂).symm
  · rw [hpc]
    by_cases heq : θ' = θ
    · subst heq
      simp [Pc.Carries]
    · simpa [Function.update_of_ne heq] using h.carries θ'
  · have hθ := hall θ
    rw [hpc, Function.update_self] at hθ
    cases hθ
  · obtain rfl : θ' = θ := honly θ' (by rw [hp]; rfl)
    obtain rfl : todo = todo' := by simpa [hpc] using hp
    exact hbusy

theorem acquire (h : Tidy gettid hms s l) {t : ℕ} {args : List Insertion}
    (hp : s.pc θ = .lock t args) (hfree : s.writing = false) :
    Tidy gettid hms { s with
      writing := true
      pc := Function.update s.pc θ (.write (Call.insertions hms ⟨gettid θ, t, args⟩)) } l := by
  -- nobody has the flag
  have hnone : ∀ θ', (s.pc θ').writes = false := by
    intro θ'
    by_contra hne
    cases hfree.symm.trans (h.flag θ' (by simpa using hne))
  obtain ⟨hcalm, hout⟩ := h.quiet hnone
  obtain ⟨rfl, rfl⟩ : t = l.time θ ∧ args = l.args θ := by simpa [hp, Pc.Carries] using h.carries θ
  exact h.hold rfl rfl (fun θ' _ => hnone θ') ⟨[], s.format, hcalm, rfl, rfl, by simp [hout]⟩

theorem insert (h : Tidy gettid hms s l) {i : Insertion} {todo : List Insertion}
    (hp : s.pc θ = .write (i :: todo)) : Tidy gettid hms { s with
      format := (i s.format).1
      out := s.out ++ (i s.format).2
      pc := Function.update s.pc θ (.write todo) } l := by
  have hθ : (s.pc θ).writes = true := by rw [hp]; rfl
  obtain ⟨done, f, hf, hsplit, hformat, hout⟩ := h.busy θ (i :: todo) hp
  refine h.hold rfl (h.flag θ hθ) (fun θ' hne => ?_)
    ⟨done ++ [i], f, hf, by simpa using hsplit, ?_, ?_⟩
  · by_contra hw
    exact hne (h.one θ' θ (by simpa using hw) hθ)
  · simp [emit_append, emit_cons, hformat]
  · simp [emit_append, emit_cons, hformat, hout]

theorem store (h : Tidy gettid hms s l) (hp : s.pc θ = .write []) :
    Tidy gettid hms { s with writing := false, pc := Function.update s.pc θ .idle }
      { l with completed := l.completed ++ [l.callOf gettid θ] } := by
  have hθ : (s.pc θ).writes = true := by rw [hp]; rfl
  have hnone : ∀ θ', (Function.update s.pc θ .idle θ').writes = false := by
    intro θ'
    by_cases heq : θ' = θ
    · rw [heq, Function.update_self]
      rfl
    · rw [Function.update_of_ne heq]
      by_contra hw
      exact heq (h.one θ' θ (by simpa using hw) hθ)
  -- the message is whole
  obtain ⟨done, f, hf, hsplit, hformat, hout⟩ := h.busy θ [] hp
  rw [List.append_nil] at hsplit
  have hmessage : emit done f = (plainFormat, (l.callOf gettid θ).message hms) := by
    rw [hsplit]
    exact hf.debugMessage_eq hms (h.plain θ)
  rw [hmessage] at hformat hout
  refine ⟨fun θ₁ θ₂ h₁ => ?_, fun θ' hw => ?_, fun θ' => ?_, h.plain, fun _ => ?_,
    fun θ' todo hp' => ?_⟩
  · cases h₁.symm.trans (hnone θ₁)
  · cases hw.symm.trans (hnone θ')
  · by_cases heq : θ' = θ
    · subst heq
      simp [Pc.Carries]
    · simpa [Function.update_of_ne heq] using h.carries θ'
  · refine ⟨?_, ?_⟩
    · rw [hformat]
      exact ⟨rfl, rfl, rfl⟩
    · simp [Log.written, hout]
  · have hw := hnone θ'
    rw [show Function.update s.pc θ .idle θ' = .write todo from hp'] at hw
    cases hw

/-- **Every step keeps the messages apart.** -/
theorem step (h : Tidy gettid hms s l) {a : Micro} {s' : State Tid}
    (hx : Step gettid hms s θ a s') : Tidy gettid hms s' (note gettid s (θ, a) l) := by
  cases hx with
  | call args hp hplain =>
    have hlog : note gettid s (θ, .call args) l =
        { l with args := Function.update l.args θ args } := by
      simp [note, hp]
    rw [hlog]
    refine h.frame (by rw [hp]; rfl) rfl (fun θ' hne => Function.update_of_ne hne _ _)
      (fun _ _ => rfl) rfl ?_ ?_
    · exact (Function.update_self θ args l.args).symm
    · show ∀ i ∈ Function.update l.args θ args θ, Plain i
      rw [Function.update_self]
      exact hplain
  | now t args hp =>
    have hlog : note gettid s (θ, .now t) l = { l with time := Function.update l.time θ t } := by
      simp [note, hp]
    have hcarries : args = l.args θ := by simpa [hp, Pc.Carries] using h.carries θ
    rw [hlog]
    refine h.frame (by rw [hp]; rfl) rfl (fun _ _ => rfl)
      (fun θ' hne => Function.update_of_ne hne _ _) rfl ?_ (h.plain θ)
    exact ⟨(Function.update_self θ t l.time).symm, hcarries⟩
  | acquire t args hp hfree =>
    have hlog : note gettid s (θ, .cas false) l = l := by simp [note, hp]
    rw [hlog]
    exact h.acquire hp hfree
  | retry t args spurious hp hfail =>
    have hlog : note gettid s (θ, .cas spurious) l = l := by simp [note, hp]
    rw [hlog]
    exact h
  | insert i todo hp =>
    have hlog : note gettid s (θ, .insert) l = l := by simp [note, hp]
    rw [hlog]
    exact h.insert hp
  | store hp =>
    have hlog : note gettid s (θ, .store) l =
        { l with completed := l.completed ++ [l.callOf gettid θ] } := by
      simp [note, hp]
    rw [hlog]
    exact h.store hp

theorem reachable {q : State Tid × Log Tid}
    (h : ((system gettid hms).withLog Log.empty (note gettid)).Reachable q) :
    Tidy gettid hms q.1 q.2 := by
  have hI : ((system gettid hms).withLog Log.empty (note gettid)).IsInvariant
      fun q : State Tid × Log Tid => Tidy gettid hms q.1 q.2 := by
    constructor
    · rintro ⟨s, l⟩ ⟨rfl, rfl⟩
      exact .init
    · rintro ⟨s, l⟩ ⟨θ, a⟩ ⟨s', l'⟩ - htidy ⟨hstep, rfl⟩
      exact htidy.step (step_of hstep)
  exact hI.reachable h

end Tidy

/-- **Messages do not mix.** With plain arguments, in every reachable state the characters
that have been written are the messages of the completed calls, one after the other, and after
them at most the beginning of one more, which is the one of the only thread that has the flag.
Each message has the id of its own thread, its time and its arguments in order, and its
microseconds have exactly six digits. -/
theorem messages_do_not_mix [DecidableEq Tid] {q : State Tid × Log Tid}
    (h : ((system gettid hms).withLog Log.empty (note gettid)).Reachable q) :
    (∀ θ θ', (q.1.pc θ).writes = true → (q.1.pc θ').writes = true → θ = θ') ∧
    (∃ part, q.1.out = q.2.completed.flatMap (Call.message hms) ++ part ∧
      (part = [] ∨ ∃ θ, (q.1.pc θ).writes = true ∧ part <+: (q.2.callOf gettid θ).message hms)) ∧
    ∀ c : Call, c.micros.length = 6 ∧ ∀ ch ∈ c.micros, ch.isDigit = true := by
  have htidy := Tidy.reachable h
  refine ⟨htidy.one, ?_, Call.micros_digits⟩
  by_cases hbusy : ∃ θ, (q.1.pc θ).writes = true
  · obtain ⟨θ, hθ⟩ := hbusy
    obtain ⟨todo, hp⟩ : ∃ todo, q.1.pc θ = .write todo := by
      cases hp : q.1.pc θ with
      | write todo => exact ⟨todo, rfl⟩
      | _ => rw [hp] at hθ; cases hθ
    obtain ⟨done, f, hf, hsplit, -, hout⟩ := htidy.busy θ todo hp
    refine ⟨_, hout, Or.inr ⟨θ, hθ, ?_⟩⟩
    have hmessage : (debugMessage hms (q.2.callOf gettid θ) f).2 =
        (q.2.callOf gettid θ).message hms := by
      rw [hf.debugMessage_eq hms (htidy.plain θ)]
    rw [← hmessage, debugMessage, ← hsplit]
    exact emit_isPrefix done todo f
  · refine ⟨[], ?_, Or.inl rfl⟩
    rw [List.append_nil]
    exact (htidy.quiet fun θ => by simpa using fun hw => hbusy ⟨θ, hw⟩).2

end Tidy

/-- The ids of two threads. -/
def twoIds (θ : Bool) : ℕ := if θ then 2 else 1

/-- Thread `false` writes its message, thread `true` gets the flag after it and begins. -/
def afterEachOther : List (Bool × Micro) :=
  ([(false, .call [text ['a']]), (false, .now 10000), (false, .cas false), (true, .call []),
    (true, .now 7000), (true, .cas false)] : List (Bool × Micro)) ++
  List.replicate 11 (false, Micro.insert) ++
  ([(false, .store), (true, .cas true), (true, .cas false), (true, .insert)] : List (Bool × Micro))

/-- The first message is whole, and the second one has begun. -/
def oneAndAPart (q : State Bool × Log Bool) : Bool :=
  q.1.out == "ThreadID (TID): 1[00:00:00.000010] [Debug] a\nThreadID (TID): ".toList &&
  q.2.completed.length == 1

theorem afterEachOther_oneAndAPart : (afterEachOther.foldlM
    (fun q a => (step twoIds midnight q.1 a).map fun s => (s, note twoIds q.1 a q.2))
    (fresh, Log.empty)).map oneAndAPart = some true := by
  decide +kernel

theorem messages_do_not_mix_afterEachOther : ∃ q : State Bool × Log Bool, oneAndAPart q = true ∧
    ∃ part, q.1.out = q.2.completed.flatMap (Call.message midnight) ++ part ∧
      (part = [] ∨ ∃ θ, (q.1.pc θ).writes = true ∧
        part <+: (q.2.callOf twoIds θ).message midnight) := by
  have hplain : ∀ s : State Bool, ∀ a ∈ afterEachOther, PlainArgs s a := by
    intro s a ha
    simp only [afterEachOther, List.mem_append, List.mem_cons, List.not_mem_nil, or_false,
      List.mem_replicate] at ha
    rintro args hargs i hi
    rcases ha with (ha | ha) | ha
    · rcases ha with rfl | rfl | rfl | rfl | rfl | rfl <;> simp at hargs <;> subst hargs
      · obtain rfl : i = text ['a'] := by simpa using hi
        exact plain_text _
      · cases hi
    · rw [ha.2] at hargs
      cases hargs
    · rcases ha with rfl | rfl | rfl | rfl <;> cases hargs
  have hinit : (system twoIds midnight).init (fresh : State Bool) := rfl
  obtain ⟨s, l, hr, hp⟩ := System.exists_logged_of_schedule hinit afterEachOther_oneAndAPart
    fun s a ha _ hst => ⟨hplain s a ha, hst⟩
  exact ⟨(s, l), hp, (messages_do_not_mix twoIds midnight hr).2.1⟩

end AstraLib.Debug
