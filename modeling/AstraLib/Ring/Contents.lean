import AstraLib.Ring.Tickets

/-!
# `AtomicRingBuffer`: whole payloads

On top of the ticket invariant: which words of which payload are where, at every intermediate word
step.  `Contents` is about the slots and the local variables; `batchDequeueArray` is in
`AstraLib.Ring.Batch`.
-/

namespace AstraLib.Ring

open Interleaving

section Slots

variable {Tid ω : Type} {W : ℕ} {cfg : Config}

/-- The payload in the slot of ticket `t`. -/
def State.dataOf (cfg : Config) (s : State Tid ℕ ℕ ω W) (t : ℕ) : Payload ω W :=
  (s.mem.buffer (t % cfg.SIZE)).data

/-- Thread `θ` is between its spin test and its `seq` store, on slot `i`. -/
def State.Accesses (cfg : Config) (s : State Tid ℕ ℕ ω W) (θ : Tid) (i : ℕ) : Prop :=
  ∃ t, ((s.pc θ).filling = some t ∨ (s.pc θ).draining = some t) ∧ t % cfg.SIZE = i

variable {s : State Tid ℕ ℕ ω W} {l : Log Tid ω W}

theorem Tickets.filling_unique (h : Tickets cfg s l) {θ θ' : Tid} {t u : ℕ}
    (hf : (s.pc θ).filling = some t) (hf' : (s.pc θ').filling = some u)
    (hut : u % cfg.SIZE = t % cfg.SIZE) : θ = θ' := by
  have heq : t = u := by
    rw [← h.filling_eq θ t hf, ← h.filling_eq θ' u hf', State.seqOf, State.seqOf, hut]
  subst heq
  obtain ⟨v, hv⟩ := Pc.writing_of_filling hf
  obtain ⟨v', hv'⟩ := Pc.writing_of_filling hf'
  exact h.writing_unique hv hv'

theorem Tickets.draining_unique (h : Tickets cfg s l) {θ θ' : Tid} {t u : ℕ}
    (hd : (s.pc θ).draining = some t) (hd' : (s.pc θ').draining = some u)
    (hut : u % cfg.SIZE = t % cfg.SIZE) : θ = θ' := by
  have heq : t + 1 = u + 1 := by
    rw [← h.draining_eq θ t hd, ← h.draining_eq θ' u hd', State.seqOf, State.seqOf, hut]
  obtain rfl : t = u := by omega
  exact h.reading_unique (Pc.reading_of_draining hd) (Pc.reading_of_draining hd')

/-- A slot is never filled and drained at once: the two turns are neighbouring numbers, and
tickets of one slot are not neighbours. -/
theorem Tickets.not_filling_draining (h : Tickets cfg s l) {θ θ' : Tid} {t u : ℕ}
    (hf : (s.pc θ).filling = some t) (hd : (s.pc θ').draining = some u)
    (hut : u % cfg.SIZE = t % cfg.SIZE) : False := by
  have heq : t = u + 1 := by
    rw [← h.filling_eq θ t hf, ← h.draining_eq θ' u hd, State.seqOf, State.seqOf, hut]
  exact Config.ne_succ hut.symm heq

theorem Tickets.accesses_unique (h : Tickets cfg s l) {θ θ' : Tid} {i : ℕ}
    (ha : s.Accesses cfg θ i) (ha' : s.Accesses cfg θ' i) : θ = θ' := by
  obtain ⟨t, ht | ht, rfl⟩ := ha
  · obtain ⟨u, hu | hu, hut⟩ := ha'
    · exact h.filling_unique ht hu hut
    · exact absurd (h.not_filling_draining ht hu hut) not_false
  · obtain ⟨u, hu | hu, hut⟩ := ha'
    · exact absurd (h.not_filling_draining hu ht hut.symm) not_false
    · exact h.draining_unique ht hu hut

theorem Tickets.lt_length (h : Tickets cfg s l) {t : ℕ} (ht : t < s.seqOf cfg t) :
    t < l.writers.length :=
  h.writeTicket_eq ▸ h.published_lt t ht

/-- A published payload was enqueued by somebody. -/
theorem Tickets.exists_writer (h : Tickets cfg s l) {t : ℕ} (ht : t < s.seqOf cfg t) :
    ∃ θ v, l.writers[t]? = some (θ, v) :=
  ⟨_, _, List.getElem?_eq_getElem (h.lt_length ht)⟩

/-- Where the words of the payloads are. -/
structure Contents (cfg : Config) (s : State Tid ℕ ℕ ω W) (l : Log Tid ω W) : Prop where
  /-- the words that an enqueue has written are in its slot -/
  filled : ∀ θ k v t done, s.pc θ = .enqCopy k v t done → ∀ j ∈ done, s.dataOf cfg t j = v j
  /-- a published payload is in its slot, but for the words that a dequeue has moved out -/
  full : ∀ t θ v, l.writers[t]? = some (θ, v) → s.seqOf cfg t = t + 1 → ∀ j,
    (∀ θ' d buf, s.pc θ' = .deqCopy d t buf → buf j = none) → s.dataOf cfg t j = v j
  /-- the words moved out are those of the payload with the same ticket -/
  taken : ∀ θ d t buf, s.pc θ = .deqCopy d t buf → ∀ j x, buf j = some x →
    ∃ θ' v, l.writers[t]? = some (θ', v) ∧ v j = x
  returned : ∀ θ t v, s.pc θ = .deqReturn t v → ∃ θ', l.writers[t]? = some (θ', v)

namespace Contents

theorem init (data array : ℕ → Payload ω W) :
    Contents cfg (fresh (unbounded cfg) cfg data array : State Tid ℕ ℕ ω W) Log.empty := by
  constructor
  · intro θ k v t done hp; simp [fresh] at hp
  · intro t θ v hv; simp [Log.empty] at hv
  · intro θ d t buf hp; simp [fresh] at hp
  · intro θ t v hp; simp [fresh] at hp

/-- What a dequeue has read, once it has read every word, is the payload with its ticket. -/
theorem collected (h : Contents cfg s l) (ht : Tickets cfg s l) {θ : Tid} {d : Dest} {t : ℕ}
    {buf : Fin W → Option ω} {v : Payload ω W} (hp : s.pc θ = .deqCopy d t buf)
    (hv : ∀ j, buf j = some (v j)) : ∃ θ', l.writers[t]? = some (θ', v) := by
  have hseq : s.seqOf cfg t = t + 1 := ht.draining_eq θ t (by rw [hp]; rfl)
  obtain ⟨θ₀, v₀, hv₀⟩ := ht.exists_writer (t := t) (by omega)
  have heq : v₀ = v := by
    funext j
    obtain ⟨θ₁, v₁, hv₁, hj⟩ := h.taken θ d t buf hp j (v j) (hv j)
    rw [hv₀] at hv₁
    cases hv₁
    exact hj
  subst heq
  exact ⟨θ₀, hv₀⟩

variable [DecidableEq Tid] {θ : Tid} {m' : Mem ℕ ω W} {p' : Pc ℕ ℕ ω W} {l' : Log Tid ω W}

/-- Steps that touch no slot, and neither start nor end in the middle of a payload. -/
theorem frame (h : Contents cfg s l) (hbuf : m'.buffer = s.mem.buffer)
    (hl : ∀ t, s.seqOf cfg t = t + 1 → l'.writers[t]? = l.writers[t]?)
    (hext : ∀ (t : ℕ) e, l.writers[t]? = some e → l'.writers[t]? = some e)
    (hold : (s.pc θ).draining = none)
    (hfill : ∀ k v t done, p' = .enqCopy k v t done → done = ∅)
    (hdrain : ∀ d t buf, p' = .deqCopy d t buf → buf = fun _ => none)
    (hret : ∀ t v, p' ≠ .deqReturn t v) :
    Contents cfg (s.put θ m' p') l' := by
  have hdata : ∀ t, (s.put θ m' p').dataOf cfg t =
      s.dataOf cfg t := by
    intro t; simp [State.dataOf, hbuf]
  have hseq : ∀ t, (s.put θ m' p').seqOf cfg t =
      s.seqOf cfg t := by
    intro t; simp [State.seqOf, hbuf]
  constructor
  · intro θ' k v t done hp j hj
    rw [hdata]
    by_cases hθ : θ' = θ
    · subst hθ
      rw [put_pc_self] at hp
      rw [hfill k v t done hp] at hj
      simp at hj
    · exact h.filled θ' k v t done (by rwa [put_pc_of_ne hθ] at hp) j hj
  · intro t θ₀ v hv ht j hj
    rw [hseq] at ht
    rw [hdata]
    rw [hl t ht] at hv
    refine h.full t θ₀ v hv ht j fun θ' d buf hp => ?_
    by_cases hθ : θ' = θ
    · subst hθ
      rw [hp] at hold
      cases hold
    · exact hj θ' d buf (by rw [put_pc_of_ne hθ]; exact hp)
  · intro θ' d t buf hp j x hx
    by_cases hθ : θ' = θ
    · subst hθ
      rw [put_pc_self] at hp
      rw [hdrain d t buf hp] at hx
      cases hx
    · obtain ⟨θ₀, v, hv, hj⟩ := h.taken θ' d t buf (by rwa [put_pc_of_ne hθ] at hp) j x hx
      exact ⟨θ₀, v, hext t _ hv, hj⟩
  · intro θ' t v hp
    by_cases hθ : θ' = θ
    · subst hθ
      exact absurd (by rwa [put_pc_self] at hp) (hret t v)
    · obtain ⟨θ₀, hv⟩ := h.returned θ' t v (by rwa [put_pc_of_ne hθ] at hp)
      exact ⟨θ₀, hext t _ hv⟩

theorem dataOf_setData (θ : Tid) (p' : Pc ℕ ℕ ω W) (t u : ℕ) (x : Payload ω W) :
    (s.put θ (s.mem.setData (t % cfg.SIZE) x) p').dataOf cfg u =
      if u % cfg.SIZE = t % cfg.SIZE then x else s.dataOf cfg u := by
  unfold State.dataOf
  split_ifs with h
  · simp [h]
  · simp [setData_data_of_ne _ _ h]

/-- An enqueue overwrites its slot, while nobody else is there. -/
theorem fill (h : Contents cfg s l) (ht : Tickets cfg s l) {k : EnqKind} {v x : Payload ω W} {t : ℕ}
    {done : Finset (Fin W)} (hf : (s.pc θ).filling = some t) (hx : ∀ j ∈ done, x j = v j) :
    Contents cfg (s.put θ (s.mem.setData (t % cfg.SIZE) x) (.enqCopy k v t done)) l := by
  have hnd : (s.pc θ).draining = none := by
    cases hp : s.pc θ <;> simp_all [Pc.filling, Pc.draining]
  constructor
  · intro θ' k' v' u done' hp j hj
    rw [dataOf_setData]
    by_cases hθ : θ' = θ
    · subst hθ
      rw [put_pc_self] at hp
      cases hp
      rw [if_pos rfl]
      exact hx j hj
    · rw [put_pc_of_ne hθ] at hp
      have hf' : (s.pc θ').filling = some u := by rw [hp]; rfl
      rw [if_neg fun hut => hθ (ht.filling_unique hf hf' hut).symm]
      exact h.filled θ' k' v' u done' hp j hj
  · intro u θ₀ v' hv hu j hj
    have hu' : s.seqOf cfg u = u + 1 := by simpa [State.seqOf] using hu
    have hut : ¬ u % cfg.SIZE = t % cfg.SIZE := by
      intro hut
      have : t = u + 1 := by
        rw [← ht.filling_eq θ t hf, ← hu', State.seqOf, State.seqOf, hut]
      exact Config.ne_succ hut.symm this
    rw [dataOf_setData, if_neg hut]
    refine h.full u θ₀ v' hv hu' j fun θ' d buf hp => ?_
    have hθ : θ' ≠ θ := by
      rintro rfl
      rw [hp] at hnd
      cases hnd
    exact hj θ' d buf (by rw [put_pc_of_ne hθ]; exact hp)
  · intro θ' d u buf hp
    have hθ : θ' ≠ θ := by
      rintro rfl
      rw [put_pc_self] at hp
      cases hp
    exact h.taken θ' d u buf (by rwa [put_pc_of_ne hθ] at hp)
  · intro θ' u v' hp
    have hθ : θ' ≠ θ := by
      rintro rfl
      rw [put_pc_self] at hp
      cases hp
    exact h.returned θ' u v' (by rwa [put_pc_of_ne hθ] at hp)

/-- The `seq` store of an enqueue makes the payload that it has written the full one. -/
theorem publishWrite (h : Contents cfg s l) (ht : Tickets cfg s l) {k : EnqKind} {v : Payload ω W}
    {t : ℕ} (hp : s.pc θ = .enqCopy k v t Finset.univ) :
    Contents cfg (s.put θ (s.mem.setSeq (t % cfg.SIZE) (t + 1)) .enqReturn) l := by
  have hw : (s.pc θ).writing = some (t, v) := by rw [hp]; rfl
  have hdata : ∀ u, (s.put θ (s.mem.setSeq (t % cfg.SIZE) (t + 1)) .enqReturn).dataOf cfg u =
      s.dataOf cfg u := by
    intro u; simp [State.dataOf]
  have hkeep : ∀ θ' q, (s.put θ (s.mem.setSeq (t % cfg.SIZE) (t + 1)) .enqReturn).pc θ' = q →
      q ≠ .enqReturn → s.pc θ' = q := by
    intro θ' q hq hne
    have hθ : θ' ≠ θ := by
      rintro rfl
      rw [put_pc_self] at hq
      exact hne hq.symm
    rwa [put_pc_of_ne hθ] at hq
  constructor
  · intro θ' k' v' u done' hp' j hj
    rw [hdata]
    exact h.filled θ' k' v' u done' (hkeep θ' _ hp' (by simp)) j hj
  · intro u θ₀ v' hv hu j hj
    rw [Tickets.seqOf_setSeq] at hu
    rw [hdata]
    split_ifs at hu with hut
    · obtain rfl : t = u := by omega
      have heq : (θ₀, v') = (θ, v) := by
        rw [((ht.writing_iff θ t v).1 hw).1] at hv
        exact (Option.some.inj hv).symm
      cases heq
      exact h.filled θ k v t Finset.univ hp j (Finset.mem_univ j)
    · refine h.full u θ₀ v' hv hu j fun θ' d buf hp' => ?_
      have hθ : θ' ≠ θ := by
        rintro rfl
        rw [hp] at hp'
        cases hp'
      exact hj θ' d buf (by rw [put_pc_of_ne hθ]; exact hp')
  · intro θ' d u buf hp'
    exact h.taken θ' d u buf (hkeep θ' _ hp' (by simp))
  · intro θ' u v' hp'
    exact h.returned θ' u v' (hkeep θ' _ hp' (by simp))

/-- A dequeue moves one word out of its slot. -/
theorem drain (h : Contents cfg s l) (ht : Tickets cfg s l) {d : Dest} {t : ℕ}
    {buf : Fin W → Option ω} {j₀ : Fin W} {left : ω} (hp : s.pc θ = .deqCopy d t buf)
    (hj₀ : buf j₀ = none)
    (hm : m'.buffer = (s.mem.setWord (t % cfg.SIZE) j₀ left).buffer) :
    Contents cfg (s.put θ m'
      (.deqCopy d t (Function.update buf j₀ (some (s.dataOf cfg t j₀))))) l := by
  have hd : (s.pc θ).draining = some t := by rw [hp]; rfl
  have hseq : s.seqOf cfg t = t + 1 := ht.draining_eq θ t hd
  have hdata : ∀ q u, (s.put θ m' q).dataOf cfg u =
      if u % cfg.SIZE = t % cfg.SIZE then Function.update (s.dataOf cfg t) j₀ left
      else s.dataOf cfg u := by
    intro q u
    rw [← dataOf_setData θ q]
    simp [State.dataOf, hm, Mem.setWord]
  constructor
  · intro θ' k v u done hp' j hj
    have hθ : θ' ≠ θ := by
      rintro rfl
      rw [put_pc_self] at hp'
      cases hp'
    rw [put_pc_of_ne hθ] at hp'
    have hf : (s.pc θ').filling = some u := by rw [hp']; rfl
    rw [hdata, if_neg fun hut => ht.not_filling_draining hf hd hut.symm]
    exact h.filled θ' k v u done hp' j hj
  · intro u θ₀ v hv hu j hj
    have hu' : s.seqOf cfg u = u + 1 := by simpa [State.seqOf, hm, Mem.setWord] using hu
    rw [hdata]
    by_cases hut : u % cfg.SIZE = t % cfg.SIZE
    · obtain rfl : u = t := by
        have : u + 1 = t + 1 := by rw [← hu', ← hseq, State.seqOf, State.seqOf, hut]
        omega
      -- a word that some dequeue has read is not claimed to be in the slot
      have hjθ := hj θ d _ (put_pc_self _ _ _ _)
      have hne : j ≠ j₀ := by
        rintro rfl
        rw [Function.update_self] at hjθ
        cases hjθ
      rw [if_pos rfl, Function.update_of_ne hne]
      refine h.full u θ₀ v hv hu' j fun θ' d' buf' hp' => ?_
      by_cases hθ : θ' = θ
      · subst hθ
        rw [hp] at hp'
        cases hp'
        rwa [Function.update_of_ne hne] at hjθ
      · exact hj θ' d' buf' (by rw [put_pc_of_ne hθ]; exact hp')
    · rw [if_neg hut]
      refine h.full u θ₀ v hv hu' j fun θ' d' buf' hp' => ?_
      have hθ : θ' ≠ θ := by
        rintro rfl
        rw [hp] at hp'
        cases hp'
        exact hut rfl
      exact hj θ' d' buf' (by rw [put_pc_of_ne hθ]; exact hp')
  · intro θ' d' u buf' hp' j x hx
    by_cases hθ : θ' = θ
    · subst hθ
      rw [put_pc_self] at hp'
      cases hp'
      by_cases hj : j = j₀
      · subst hj
        rw [Function.update_self] at hx
        cases hx
        obtain ⟨θ₀, v, hv⟩ := ht.exists_writer (t := t) (by omega)
        refine ⟨θ₀, v, hv, (h.full t θ₀ v hv hseq j fun θ' d' buf' hp' => ?_).symm⟩
        have hd' : (s.pc θ').draining = some t := by rw [hp']; rfl
        obtain rfl := ht.draining_unique hd hd' rfl
        rw [hp] at hp'
        cases hp'
        exact hj₀
      · rw [Function.update_of_ne hj] at hx
        exact h.taken θ' d t buf hp j x hx
    · exact h.taken θ' d' u buf' (by rwa [put_pc_of_ne hθ] at hp') j x hx
  · intro θ' u v hp'
    have hθ : θ' ≠ θ := by
      rintro rfl
      rw [put_pc_self] at hp'
      cases hp'
    exact h.returned θ' u v (by rwa [put_pc_of_ne hθ] at hp')

/-- The `seq` store of a dequeue. -/
theorem publishRead (h : Contents cfg s l) (ht : Tickets cfg s l) {d : Dest} {t : ℕ}
    {buf : Fin W → Option ω} {v : Payload ω W} (hp : s.pc θ = .deqCopy d t buf)
    (hv : ∀ j, buf j = some (v j)) (hl : l'.writers = l.writers) :
    Contents cfg (s.put θ (s.mem.setSeq (t % cfg.SIZE) (t + cfg.SIZE)) (Pc.deqPast t v d)) l' := by
  have hdata : ∀ u, (s.put θ (s.mem.setSeq (t % cfg.SIZE) (t + cfg.SIZE))
      (Pc.deqPast t v d)).dataOf cfg u = s.dataOf cfg u := by
    intro u; simp [State.dataOf]
  have hquiet := deqPast_quiet (κ := ℕ) t v d
  constructor
  · intro θ' k' v' u done' hp' j hj
    have hθ : θ' ≠ θ := by
      rintro rfl
      rw [put_pc_self] at hp'
      rw [hp'] at hquiet
      cases hquiet.1
    rw [hdata]
    exact h.filled θ' k' v' u done' (by rwa [put_pc_of_ne hθ] at hp') j hj
  · intro u θ₀ v' hv' hu j hj
    rw [Tickets.seqOf_setSeq] at hu
    rw [hl] at hv'
    rw [hdata]
    split_ifs at hu with hut
    · -- the slot now waits for a write
      have : (t + cfg.SIZE) % cfg.SIZE = u % cfg.SIZE := by rw [Nat.add_mod_right, hut]
      exact absurd hu (Config.ne_succ this)
    · refine h.full u θ₀ v' hv' hu j fun θ' d' buf' hp' => ?_
      have hθ : θ' ≠ θ := by
        rintro rfl
        rw [hp] at hp'
        cases hp'
        exact hut rfl
      exact hj θ' d' buf' (by rw [put_pc_of_ne hθ]; exact hp')
  · intro θ' d' u buf' hp'
    have hθ : θ' ≠ θ := by
      rintro rfl
      rw [put_pc_self] at hp'
      rw [hp'] at hquiet
      cases hquiet.2
    rw [hl]
    exact h.taken θ' d' u buf' (by rwa [put_pc_of_ne hθ] at hp')
  · intro θ' u v' hp'
    rw [hl]
    by_cases hθ : θ' = θ
    · subst hθ
      rw [put_pc_self] at hp'
      cases d with
      | result => cases hp'; exact h.collected ht hp hv
      | batch i count => cases hp'
    · exact h.returned θ' u v' (by rwa [put_pc_of_ne hθ] at hp')

/-- **Every step keeps the payloads whole.** -/
theorem step (h : Contents cfg s l) (ht : Tickets cfg s l) {a : Micro ω W}
    (hx : Exec (unbounded cfg) cfg s.mem (s.pc θ) a m' p') :
    Contents cfg (s.put θ m' p') (l.note θ (s.pc θ) a) := by
  generalize hp : s.pc θ = p at hx
  cases hx with
  | call c =>
    cases c <;> exact h.frame rfl (fun _ _ => rfl) (fun _ _ => id) (by rw [hp]; rfl)
      (by simp [Call.entry]) (by simp [Call.entry]) (by simp [Call.entry])
  | enqClaim k v =>
    refine h.frame rfl (fun t hseq => ?_) (fun t e he => ?_) (by rw [hp]; rfl) (by simp)
      (by simp) (by simp)
    · exact List.getElem?_append_left (ht.lt_length (by omega))
    · exact getElem?_concat_eq_some.2 (Or.inl he)
  | enqPass k v t hseq =>
    refine h.frame rfl (fun _ _ => rfl) (fun _ _ => id) (by rw [hp]; rfl) ?_ ?_ ?_
    · intro k' v' t' done hq
      unfold Pc.enqPast at hq
      split_ifs at hq
      cases hq
      rfl
    · intro d t' buf hq
      unfold Pc.enqPast at hq
      split_ifs at hq
    · intro t' v' hq
      unfold Pc.enqPast at hq
      split_ifs at hq
  | destroy v t junk =>
    rw [unbounded_index]
    exact h.fill ht (by rw [hp]; rfl) (by simp)
  | enqCopy k v t done j left hj =>
    rw [unbounded_index]
    refine h.fill ht (by rw [hp]; rfl) fun j' hj' => ?_
    rcases Finset.mem_insert.1 hj' with rfl | hdone
    · rw [Function.update_self]
    · have hne : j' ≠ j := by
        rintro rfl
        exact hj hdone
      rw [Function.update_of_ne hne]
      exact h.filled θ k v t done hp j' hdone
  | enqPublish k v t =>
    rw [unbounded_index]
    exact h.publishWrite ht hp
  | deqPass d t hseq =>
    refine h.frame rfl (fun _ _ => rfl) (fun _ _ => id) (by rw [hp]; rfl) (by simp) ?_ (by simp)
    intro d' t' buf hq
    cases hq
    rfl
  | deqCopy d t buf j left hj =>
    have := h.drain ht hp hj
      (deliver_buffer (s.mem.setWord (t % cfg.SIZE) j left) j (s.dataOf cfg t j) d)
    simp only [unbounded_index]
    cases d <;> exact this
  | deqPublish d t buf v hv =>
    simp only [unbounded_index]
    exact h.publishRead ht hp hv (by cases d <;> rfl)
  | _ =>
    exact h.frame rfl (fun _ _ => rfl) (fun _ _ => id) (by rw [hp]; rfl) (by simp)
      (by simp) (by simp)

end Contents

end Slots

/-! ### Every reachable state -/

section Reachable

variable {Tid ω : Type} {W : ℕ} [DecidableEq Tid]

/-- The log of the whole system. -/
def logNote (s : State Tid ℕ ℕ ω W) (a : Tid × Micro ω W) (l : Log Tid ω W) : Log Tid ω W :=
  l.note a.1 (s.pc a.1) a.2

theorem invariants {cfg : Config} {s : State Tid ℕ ℕ ω W} {l : Log Tid ω W}
    (h : ((system (unbounded cfg) cfg).withLog Log.empty logNote).Reachable (s, l)) :
    Tickets cfg s l ∧ Contents cfg s l := by
  have hI : ((system (unbounded cfg) cfg).withLog Log.empty logNote).IsInvariant
      fun p : State Tid ℕ ℕ ω W × Log Tid ω W => Tickets cfg p.1 p.2 ∧ Contents cfg p.1 p.2 := by
    constructor
    · rintro ⟨s, l⟩ ⟨⟨data, array, rfl⟩, rfl⟩
      exact ⟨Tickets.init data array, Contents.init data array⟩
    · rintro ⟨s, l⟩ ⟨θ, a⟩ ⟨s', l'⟩ - ⟨ht, hc⟩ ⟨hstep, rfl⟩
      obtain ⟨m, p, hx, rfl⟩ := step_eq_some.1 hstep
      exact ⟨ht.step hx.effect, hc.step ht hx⟩
  exact hI.reachable h

end Reachable

end AstraLib.Ring
