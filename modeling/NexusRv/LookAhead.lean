import NexusRv.Replay
import NexusRv.Filter
/-!
# Looking ahead

`trace_fetch_msg` and `trace_next_indirect` read one message further, into a local message
that is not cleared. What they take from it is the stream's, except in two cases: the call
at the end of the stream returns 0 and writes nothing, and with a filter an Idle message is
let through or not by the SRC that the local message held before.
-/

namespace nexusrv

/-! ## A call into another message -/

section Next
variable {d d' d'' : MsgDecoder} {m m' a : Msg} {r : Except NexusError Nat}

/-- An Idle message comes next, and the filter looks at the SRC of the message to write. -/
def IdleFirst (d : MsgDecoder) : Prop :=
  0 ≤ d.src_filter ∧ ∃ n d' m, msg_decoder_next (d.sifts (-1), Msg.zero) = some (.ok (n + 1), d', m) ∧ m.tcode = .Idle

/-- A decoder with a filter is one without, that sifts. -/
theorem filter_cases (d : MsgDecoder) : d.src_filter < 0 ∨ ∃ f : Int16, 0 ≤ f ∧ d = d.sifts f := by
  by_cases h : d.src_filter < 0
  · exact .inl h
  · exact .inr ⟨d.src_filter, Int16.not_lt.1 h, rfl⟩

/-- Calls into two messages do the same. -/
def Alike (d : MsgDecoder) (m m' : Msg) : Prop :=
  ∃ r d' a b, msg_decoder_next (d, m) = some (r, d', a) ∧ msg_decoder_next (d, m') = some (r, d', b) ∧ SameResult (r, a) (r, b)

theorem SameResult.symm {a b : Msg} (h : SameResult (r, a) (r, b)) : SameResult (r, b) (r, a) := ⟨rfl, fun n hn => (h.2 n hn).symm⟩

/-- A message that the filter lets through or drops in both, and what follows where it is dropped. -/
theorem alike_of_first {f : Int16} {b : Msg} (hf : 0 ≤ f) (hinv : DecoderInv d) (ha : msg_decoder_next (d.sifts (-1), m) = some (r, d', a))
    (hb : msg_decoder_next (d.sifts (-1), m') = some (r, d', b)) (hsame : SameResult (r, a) (r, b))
    (hsrc : ∀ n, r = .ok (n + 1) → (a.src.toNat = f.toInt ↔ b.src.toNat = f.toInt))
    (hrest : ∀ n, r = .ok (n + 1) → a.src.toNat ≠ f.toInt → b.src.toNat ≠ f.toInt → Alike (d'.sifts f) a b) : Alike (d.sifts f) m m' := by
  by_cases hdrop : ∃ n, r = .ok (n + 1) ∧ a.src.toNat ≠ f.toInt
  · obtain ⟨n, rfl, hne⟩ := hdrop
    have hne' : b.src.toNat ≠ f.toInt := mt (hsrc n rfl).2 hne
    unfold Alike
    rw [sifts_drops hf hinv ha hne, sifts_drops hf hinv hb hne']
    exact hrest n rfl hne hne'
  · have hkeep : ∀ n, r = .ok (n + 1) → a.src.toNat = f.toInt := fun n hn => Decidable.of_not_not fun h => hdrop ⟨n, hn, h⟩
    have hkeep' : ∀ n, r = .ok (n + 1) → b.src.toNat = f.toInt := fun n hn => (hsrc n hn).1 (hkeep n hn)
    exact ⟨r, _, a, b, sifts_keeps hf hinv ha hkeep, sifts_keeps hf hinv hb hkeep', hsame⟩

/-- Once both messages hold another SRC, what they held before does not matter. -/
theorem next_sifted {f : Int16} (hf : 0 ≤ f) (hinv : DecoderInv d) (hm : m.src.toNat ≠ f.toInt) (hm' : m'.src.toNat ≠ f.toInt) :
    Alike (d.sifts f) m m' := by
  induction hk : d.bytesLeft using Nat.strong_induction_on generalizing d m m' with
  | _ k ih =>
    obtain ⟨r, d', z, hz, hinv', -, hlt⟩ := next_plainly hinv Msg.zero
    obtain ⟨a, ha, hsame, hseen⟩ := next_seen hinv hz m
    obtain ⟨b, hb, hsame', hseen'⟩ := next_seen hinv hz m'
    refine alike_of_first hf hinv ha hb ⟨rfl, fun n hn => (hsame.2 n hn).trans (hsame'.2 n hn).symm⟩ ?_ ?_
    · intro n hn
      rw [hseen n hn, hseen' n hn]
      -- an Idle message leaves what was there
      split
      · exact ⟨fun h => absurd h hm, fun h => absurd h hm'⟩
      · rfl
    · intro n hn hne hne'
      exact ih d'.bytesLeft (hk ▸ hlt n hn) hinv' hne hne' rfl

/-- The first message without the filter, where the filter does not look at what the message held before. -/
theorem first_written {f : Int16} (hf : 0 ≤ f) (hinv : DecoderInv d) (hidle : ¬ IdleFirst (d.sifts f)) {n : Nat}
    (h : msg_decoder_next (d.sifts (-1), m) = some (.ok (n + 1), d', a)) : a.tcode ≠ .Idle := by
  intro ha
  obtain ⟨b, hb, hsame, -⟩ := next_seen hinv h Msg.zero
  exact hidle ⟨hf, n, d', b, hb, (hsame.2 n rfl).1.trans ha⟩

/-- Unless an Idle message comes first, a call writes the same into every message. -/
theorem next_steady (hinv : DecoderInv d) (hidle : ¬ IdleFirst d) (m m' : Msg) : Alike d m m' := by
  obtain hneg | ⟨f, hf, hd⟩ := filter_cases d
  · exact next_any hinv hneg m m'
  rw [hd] at hidle ⊢
  obtain ⟨r, d', a, ha, hinv', -, -⟩ := next_plainly hinv m
  obtain ⟨b, hb, hsame, hseen⟩ := next_seen hinv ha m'
  refine alike_of_first hf hinv ha hb hsame.symm ?_ ?_
  · rintro n rfl
    rw [hseen n rfl, if_neg (first_written hf hinv hidle ha)]
  · intro n hn hne hne'
    exact next_sifted hf hinv' hne hne'

/-- A filter delivers no Idle message, unless one comes first. -/
theorem next_delivers_known (hinv : DecoderInv d) (hidle : ¬ IdleFirst d) {n : Nat}
    (h : msg_decoder_next (d, m) = some (.ok (n + 1), d', a)) : d.src_filter < 0 ∨ a.tcode ≠ .Idle := by
  obtain hneg | ⟨f, hf, hd⟩ := filter_cases d
  · exact .inl hneg
  refine .inr fun ha => ?_
  rw [hd] at hidle h
  have hnot : ∀ {d₁ : MsgDecoder} {x : Msg}, DecoderInv d₁ → x.src.toNat ≠ f.toInt → msg_decoder_next (d₁.sifts f, x) = some (.ok (n + 1), d', a) →
      False := by
    intro d₁ x hinv₁ hx hnext
    obtain ⟨r, d₂, b, hb, hnot⟩ := next_not_idle hf hinv₁ hx
    rw [hnext] at hb
    cases hb
    simp [isIdle, ha] at hnot
  obtain ⟨r, d₁, b, hb, hinv₁, -, -⟩ := next_plainly hinv m
  by_cases hdrop : ∃ k, r = .ok (k + 1) ∧ b.src.toNat ≠ f.toInt
  · obtain ⟨k, rfl, hne⟩ := hdrop
    rw [sifts_drops hf hinv hb hne] at h
    exact hnot hinv₁ hne h
  · rw [sifts_keeps hf hinv hb fun k hk => Decidable.of_not_not fun hne => hdrop ⟨k, hk, hne⟩] at h
    cases h
    exact first_written hf hinv hidle hb ha

/-- At the end there is nothing to put back. -/
theorem next_end (hinv : DecoderInv d) (h : msg_decoder_next (d, m) = some (.ok 0, d', a)) : msg_source.rewind_last d' = some d' := by
  have htotal := msg_decoder_next_total hinv m
  rw [h] at htotal
  generalize hx : (some (.ok 0, d', a) : Option (Except NexusError Nat × MsgDecoder × Msg)) = x at htotal
  cases htotal with
  | message n src _ _ h0 =>
    cases hx
    exact absurd h0 (Nat.lt_irrefl 0)
  | eof _ _ hinv' _ hl =>
    cases hx
    exact rewind_eof hinv' hl
  | failed => cases hx

/-- A message that was put back is delivered again, the bytes of it. -/
theorem next_put_back (hinv : DecoderInv d) {n : Nat} (h : msg_decoder_next (d, m) = some (.ok (n + 1), d', a))
    (hknown : d.src_filter < 0 ∨ a.tcode ≠ .Idle) (hback : msg_source.rewind_last d' = some d'') :
    d'.bytesLeft + (n + 1) = d''.bytesLeft ∧ ∀ mem, ∃ b, msg_decoder_next (d'', mem) = some (.ok (n + 1), d', b) ∧ b.Same a := by
  have htotal := msg_decoder_next_total hinv m
  rw [h] at htotal
  generalize hx : (some (.ok (n + 1), d', a) : Option (Except NexusError Nat × MsgDecoder × Msg)) = x at htotal
  cases htotal with
  | message k src m₀ _ _ hk hinv₁ hs _ hdec hpass =>
    cases hx
    rw [← hs.2.1] at hknown
    have hrew := rewind_advance hinv₁ (Nat.succ_pos n) hk
    have hsame : msg_source.rewind_last (src.advance (n + 1)) = some { src with lastmsg_len := 0 } := by
      change (msg_decoder_rewind_last (src.advance (n + 1))).map Prod.snd = _
      rw [hrew]
      rfl
    cases hsame.symm.trans hback
    refine ⟨advance_bytesLeft hinv₁ hk, fun mem => ?_⟩
    obtain ⟨d₁, b, hrew', hnext, hsame'⟩ := msg_decoder_next_rewind hinv₁ hk hdec hpass hknown mem
    cases hrew.symm.trans hrew'
    exact ⟨b, hnext, hsame'.symm⟩
  | eof => cases hx
  | failed => cases hx

/-- A message that was read ahead and put back is delivered again. -/
theorem next_again (hinv : DecoderInv d) (hidle : ¬ IdleFirst d) {n : Nat} (h : msg_decoder_next (d, m) = some (.ok (n + 1), d', a))
    (hback : msg_source.rewind_last d' = some d'') (mem : Msg) :
    ∃ b, msg_decoder_next (d'', mem) = some (.ok (n + 1), d', b) ∧ b.Same a :=
  (next_put_back hinv h (next_delivers_known hinv hidle h) hback).2 mem

/-- Where an Idle message comes first, it is delivered into a message with the SRC of the filter; with another SRC
it is passed, and is not put back. -/
theorem idle_parts (hinv : DecoderInv d) (hidle : IdleFirst d) : ∃ d₁ d₂, msg_source.rewind_last d₁ = some d₂ ∧
    (∃ m n a, msg_decoder_next (d, m) = some (.ok (n + 1), d₁, a) ∧ a.tcode = .Idle) ∧
    ∃ m r d' a, msg_decoder_next (d, m) = some (r, d', a) ∧ d'.bytesLeft < d₂.bytesLeft ∧
      ∀ n, r = .ok n → ∃ d'', msg_source.rewind_last d' = some d'' ∧ d''.bytesLeft < d₂.bytesLeft := by
  obtain ⟨h0, n, d', z, hz, hza⟩ := hidle
  obtain ⟨f, hf, hd⟩ := (filter_cases d).resolve_left (Int16.not_lt.2 h0)
  have hinv' := sifts_inv hinv (-1)
  have htotal := msg_decoder_next_total hinv' Msg.zero
  rw [hz] at htotal
  generalize hx : (some (.ok (n + 1), d', z) : Option (Except NexusError Nat × MsgDecoder × Msg)) = x at htotal
  cases htotal with
  | eof => cases hx
  | failed => cases hx
  | message k src m₀ _ _ hk hinv₁ hs _ hdec hpass =>
    cases hx
    have hinvf := sifts_inv hinv₁ f
    have hadv : ((src.advance (n + 1)).sifts f) = (src.sifts f).advance (n + 1) := (advance_sifts f src (n + 1)).symm
    have hleft : ((src.advance (n + 1)).sifts f).bytesLeft + (n + 1) = src.bytesLeft := by
      rw [hadv]
      exact advance_bytesLeft hinvf hk
    -- a message with the SRC of the filter, and one with another
    let m₁ : Msg := { Msg.zero with src := .ofNat f.toInt.toNat }
    have hm₁ : m₁.src.toNat = f.toInt := src_of_filter hf
    obtain ⟨m₂, hm₂⟩ := other_src f
    obtain ⟨a₁, ha₁, hsame₁, hseen₁⟩ := next_seen hinv hz m₁
    obtain ⟨a₂, ha₂, hsame₂, hseen₂⟩ := next_seen hinv hz m₂
    have hsrc₁ := hseen₁ n rfl
    have hsrc₂ := hseen₂ n rfl
    rw [if_pos hza] at hsrc₁ hsrc₂
    have hinv₂ : DecoderInv (src.advance (n + 1)) := advance_inv hinv₁ hk
    refine ⟨(src.advance (n + 1)).sifts f, { src.sifts f with lastmsg_len := 0 }, ?_, ⟨m₁, n, a₁, ?_, (hsame₁.2 n rfl).1.trans hza⟩, ?_⟩
    · change (msg_decoder_rewind_last _).map Prod.snd = _
      rw [hadv, rewind_advance hinvf (Nat.succ_pos n) hk]
      rfl
    · rw [hd]
      exact sifts_keeps hf hinv ha₁ fun _ _ => (congrArg Nat.cast hsrc₁).trans hm₁
    · have hgo := sifts_drops hf hinv ha₂ (by rwa [hsrc₂])
      rw [← hd] at hgo
      obtain ⟨r, d', b, hb⟩ : ∃ r d' b, msg_decoder_next ((src.advance (n + 1)).sifts f, a₂) = some (r, d', b) := by
        rcases hb : msg_decoder_next ((src.advance (n + 1)).sifts f, a₂) with _ | ⟨r, d', b⟩
        · exact absurd hb (msg_source_lawful.returns a₂ (sifts_inv hinv₂ f))
        · exact ⟨r, d', b, rfl⟩
      have hbound : ({ src.sifts f with lastmsg_len := 0 } : MsgDecoder).bytesLeft = src.bytesLeft := rfl
      obtain ⟨-, -, hle, -⟩ := msg_source_lawful.next (sifts_inv hinv₂ f) hb
      refine ⟨m₂, r, d', b, hgo.trans hb, ?_, ?_⟩
      · have hle : d'.bytesLeft ≤ ((src.advance (n + 1)).sifts f).bytesLeft := hle
        omega
      · rintro k rfl
        obtain ⟨d'', hd'', -, -, hle''⟩ := msg_source_lawful.rewind (sifts_inv hinv₂ f) hb
        have hle'' : d''.bytesLeft ≤ ((src.advance (n + 1)).sifts f).bytesLeft := hle''
        exact ⟨d'', hd'', by omega⟩

end Next

/-! ## One look-ahead -/

section Ahead
variable {σ β : Type} (src : Source σ)

/-- The next message of the stream behind `d`. -/
def follows (d : σ) : Option Msg :=
  match src.next (d, Msg.zero) with
  | some (.ok (_ + 1), _, m) => some m
  | _ => none

/-- The next call delivers `m`, into whatever message. -/
def Redelivers (d : σ) (m : Msg) : Prop := ∀ mem, ∃ n d' m', src.next (d, mem) = some (.ok (n + 1), d', m') ∧ m'.Same m

/-- One look-ahead behind `d` into a message that holds `mem`: what `f` finds in the message, or `dflt` and the message
is put back. -/
def ahead (f : Msg → Option β) (dflt : β) (d : σ) (mem : Msg) : Option (Except NexusError β × σ) :=
  (src.next (d, mem)).bind fun r =>
    match r.1 with
    | .error e => some (.error e, r.2.1)
    | .ok _ => match f r.2.2 with
      | some b => some (.ok b, r.2.1)
      | none => (src.rewind_last r.2.1).map fun d => (.ok dflt, d)

/-- What the look-ahead gives is the stream's. -/
structure AheadTells (f : Msg → Option β) (dflt : β) (d : σ) : Prop where
  same : ∀ mem mem', ahead src f dflt d mem = ahead src f dflt d mem'
  told : ∀ mem b d', ahead src f dflt d mem = some (.ok b, d') → b = ((follows src d).bind f).getD dflt
  failed : ∀ mem e d', ahead src f dflt d mem = some (.error e, d') → follows src d = none
  again : ∀ mem b d', ahead src f dflt d mem = some (.ok b, d') → ∀ m, follows src d = some m → f m = none → Redelivers src d' m

/-- The stream ends behind `d`, and what the message to write holds there is, or can be, of this kind. -/
def EndsIn (kind : Msg → Bool) (d : σ) : Prop := ∃ mem d' m, src.next (d, mem) = some (.ok 0, d', m) ∧ kind m = true

variable {src} {f : Msg → Option β} {dflt : β} {d d' : σ} {mem m : Msg}

theorem ahead_error {e : NexusError} (h : src.next (d, mem) = some (.error e, d', m)) : ahead src f dflt d mem = some (.error e, d') := by
  rw [ahead, h]
  rfl

theorem ahead_found {n : Nat} {b : β} (h : src.next (d, mem) = some (.ok n, d', m)) (hf : f m = some b) :
    ahead src f dflt d mem = some (.ok b, d') := by
  rw [ahead, h]
  simp only [Option.bind_some, hf]

theorem ahead_other {n : Nat} {d'' : σ} (h : src.next (d, mem) = some (.ok n, d', m)) (hf : f m = none) (hback : src.rewind_last d' = some d'') :
    ahead src f dflt d mem = some (.ok dflt, d'') := by
  rw [ahead, h]
  simp only [Option.bind_some, hf, hback, Option.map_some]

end Ahead

/-- What a look-ahead of this kind gives behind `d` depends on the message that it writes. -/
def Blurs (kind : Msg → Bool) (d : MsgDecoder) : Prop := IdleFirst d ∨ EndsIn msg_source kind d

section Blurs
variable {β : Type} {f : Msg → Option β} {dflt : β} {kind : Msg → Bool} {d : MsgDecoder}

theorem follows_message {n : Nat} {d' : MsgDecoder} {m : Msg} (h : msg_decoder_next (d, Msg.zero) = some (.ok (n + 1), d', m)) :
    follows msg_source d = some m := by
  rw [follows, show msg_source.next (d, Msg.zero) = _ from h]

theorem follows_none {r : Except NexusError Nat} {d' : MsgDecoder} {m : Msg} (h : msg_decoder_next (d, Msg.zero) = some (r, d', m))
    (hr : ∀ n, r ≠ .ok (n + 1)) : follows msg_source d = none := by
  rw [follows, show msg_source.next (d, Msg.zero) = _ from h]
  rcases r with e | _ | n
  · rfl
  · rfl
  · exact absurd rfl (hr n)

/-- One look-ahead that is every look-ahead. -/
theorem AheadTells.of_all {r : Except NexusError β} {d' : MsgDecoder} (hall : ∀ mem, ahead msg_source f dflt d mem = some (r, d'))
    (htold : ∀ b, r = .ok b → b = ((follows msg_source d).bind f).getD dflt) (hfailed : ∀ e, r = .error e → follows msg_source d = none)
    (hagain : ∀ m, follows msg_source d = some m → f m = none → Redelivers msg_source d' m) : AheadTells msg_source f dflt d := by
  constructor
  · intro mem mem'
    rw [hall mem, hall mem']
  · intro mem b d₁ hb
    rw [hall mem] at hb
    cases hb
    exact htold b rfl
  · intro mem e d₁ he
    rw [hall mem] at he
    cases he
    exact hfailed e rfl
  · intro mem b d₁ hb
    rw [hall mem] at hb
    cases hb
    exact hagain

theorem ahead_steady (hinv : DecoderInv d) (hsame : ∀ a b : Msg, a.Same b → f a = f b)
    (hkind : ∀ m b, f m = some b → kind m = false → b = dflt) (h : ¬ Blurs kind d) : AheadTells msg_source f dflt d := by
  obtain ⟨hidle, hend⟩ := not_or.1 h
  obtain ⟨r, d', z, -, hz, -⟩ := next_steady hinv hidle Msg.zero Msg.zero
  have hwrites : ∀ mem, ∃ a, msg_decoder_next (d, mem) = some (r, d', a) ∧ SameResult (r, a) (r, z) := by
    intro mem
    obtain ⟨r', d₁, a, b, ha, hb, hab⟩ := next_steady hinv hidle mem Msg.zero
    rw [hz] at hb
    cases hb
    exact ⟨a, ha, hab⟩
  rcases r with e | _ | n
  · have hnone := follows_none hz (by simp)
    have hall : ∀ mem, ahead msg_source f dflt d mem = some (.error e, d') := by
      intro mem
      obtain ⟨a, ha, -⟩ := hwrites mem
      exact ahead_error ha
    exact .of_all hall (by simp) (fun _ _ => hnone) (by simp [hnone])
  · -- at the end nothing is put back, and what is found is the default
    have hnone := follows_none hz (by simp)
    have hall : ∀ mem, ahead msg_source f dflt d mem = some (.ok dflt, d') := by
      intro mem
      obtain ⟨a, ha, -⟩ := hwrites mem
      rcases hfa : f a with _ | b
      · exact ahead_other ha hfa (next_end hinv ha)
      · have hk : kind a = false := Bool.eq_false_of_not_eq_true fun hk => hend ⟨mem, d', a, ha, hk⟩
        rw [ahead_found ha hfa, hkind a b hfa hk]
    exact .of_all hall (by simp [hnone]) (by simp) (by simp [hnone])
  · have hsome := follows_message hz
    have hf : ∀ mem, ∃ a, msg_decoder_next (d, mem) = some (.ok (n + 1), d', a) ∧ f a = f z := by
      intro mem
      obtain ⟨a, ha, hza⟩ := hwrites mem
      exact ⟨a, ha, hsame a z (hza.2 n rfl)⟩
    rcases hfz : f z with _ | b
    · obtain ⟨d'', hback, -⟩ := msg_source_lawful.rewind hinv hz
      have hall : ∀ mem, ahead msg_source f dflt d mem = some (.ok dflt, d'') := by
        intro mem
        obtain ⟨a, ha, hfa⟩ := hf mem
        exact ahead_other ha (hfa.trans hfz) hback
      refine .of_all hall (by simp [hsome, hfz]) (by simp) ?_
      intro m hm _ mem
      rw [hsome] at hm
      cases hm
      obtain ⟨b, hb, hbz⟩ := next_again hinv hidle hz hback mem
      exact ⟨n, d', b, hb, hbz⟩
    · have hall : ∀ mem, ahead msg_source f dflt d mem = some (.ok b, d') := by
        intro mem
        obtain ⟨a, ha, hfa⟩ := hf mem
        exact ahead_found ha (hfa.trans hfz)
      refine .of_all hall (by simp [hsome, hfz]) (by simp) ?_
      intro m hm hno
      rw [hsome] at hm
      cases hm
      rw [hfz] at hno
      cases hno

/-- A look-ahead that gives the same into every message, and what the stream holds, is not blurred. -/
theorem not_blurs (hinv : DecoderInv d) (hidle : ∀ m, m.tcode = .Idle → f m = none)
    (hkind : ∀ m, kind m = true → ∃ b, f m = some b ∧ b ≠ dflt) (hsame : ∀ mem mem', ahead msg_source f dflt d mem = ahead msg_source f dflt d mem')
    (htold : ∀ mem b d', ahead msg_source f dflt d mem = some (.ok b, d') → b = ((follows msg_source d).bind f).getD dflt) : ¬ Blurs kind d := by
  intro hblurs
  by_cases hfirst : IdleFirst d
  · obtain ⟨d₁, d₂, hback, ⟨m₁, n, a, ha, htc⟩, m₂, r, d', a', ha', hlt, hrew⟩ := idle_parts hinv hfirst
    have hone : ahead msg_source f dflt d m₁ = some (.ok dflt, d₂) := ahead_other ha (hidle a htc) hback
    rw [hsame m₁ m₂] at hone
    -- into the other message, the bytes of the Idle message are gone
    rcases r with e | k
    · rw [ahead_error ha'] at hone
      cases hone
    · rcases hfa : f a' with _ | b
      · obtain ⟨d'', hd'', hlt''⟩ := hrew k rfl
        rw [ahead_other ha' hfa hd''] at hone
        cases hone
        exact Nat.lt_irrefl _ hlt''
      · rw [ahead_found ha' hfa] at hone
        cases hone
        exact Nat.lt_irrefl _ hlt
  · obtain ⟨mem, d', m, hm, hk⟩ := hblurs.resolve_left hfirst
    obtain ⟨b, hfb, hne⟩ := hkind m hk
    obtain ⟨r, d₁, a, z, ha, hz, -⟩ := next_steady hinv hfirst mem Msg.zero
    rw [show msg_decoder_next (d, mem) = _ from hm] at ha
    cases ha
    have hb := htold mem b d' (ahead_found hm hfb)
    rw [follows_none hz (by simp)] at hb
    exact hne hb

end Blurs

/-! ## The look-ahead of a fetch -/

/-- What a look-ahead takes from its message. -/
def repeats (m : Msg) : Option UInt32 := if m.tcode = .RepeatBranch then some m.hrepeat else none

theorem repeats_eq_none {m : Msg} : repeats m = none ↔ m.tcode ≠ .RepeatBranch := by
  unfold repeats
  split <;> simp [*]

theorem repeats_eq_some {m : Msg} {k : UInt32} : repeats m = some k ↔ m.tcode = .RepeatBranch ∧ m.hrepeat = k := by
  unfold repeats
  split <;> simp [*]

/-- The repetitions that the next message stands for, behind a branch. -/
def repetitions (next : Option Msg) : UInt32 := (next.bind repeats).getD 0

/-- A RepeatBranch that repeats. -/
def repeats_more (m : Msg) : Bool := m.tcode = .RepeatBranch && m.hrepeat ≠ 0

section Fetch
variable {σ : Type} {src : Source σ} {s t u : TraceDecoder σ} {d : σ} {m : Msg}

/-- A fetch finds the branch `m`, which is no sync, and looks ahead behind it. -/
structure TraceDecoder.Branches (src : Source σ) (s : TraceDecoder σ) (d : σ) (m : Msg) : Prop where
  absent : s.msg_present = false
  next : ∃ n, n ≠ 0 ∧ src.next (s.msg_decoder, s.msg) = some (.ok n, d, m)
  checked : trace_check_msg m = true
  repeatable : repeatable m = true

/-- The branch is buffered, with its repetitions. -/
def TraceDecoder.branched (s : TraceDecoder σ) (m : Msg) (d : σ) (hrepeat : UInt32) : TraceDecoder σ :=
  { s with msg_decoder := d, msg := { m with hrepeat := hrepeat }, msg_present := true }

/-- What a fetch that found the branch makes of its look-ahead. -/
def TraceDecoder.looked (s : TraceDecoder σ) (m : Msg) (r : Except NexusError UInt32 × σ) : Except NexusError Bool × TraceDecoder σ :=
  match r.1 with
  | .error e => (.error e, s.branched m r.2 0)
  | .ok k => (.ok true, s.branched m r.2 k)

theorem looked_injective (s : TraceDecoder σ) (m : Msg) : Function.Injective (s.looked m) := by
  intro x y h
  obtain ⟨e | k, d⟩ := x <;> obtain ⟨e' | k', d'⟩ := y <;> simp only [TraceDecoder.looked, Prod.mk.injEq] at h
  · cases h.1
    cases congrArg TraceDecoder.msg_decoder h.2
    rfl
  · cases h.1
  · cases h.1
  · have hk : k = k' := congrArg (·.msg.hrepeat) h.2
    have hd : d = d' := congrArg TraceDecoder.msg_decoder h.2
    rw [hk, hd]

/-- A fetch that finds a branch, by its look-ahead. -/
theorem fetch_branch (h : s.Branches src d m) (msg2 : Msg) :
    trace_fetch_msg src msg2 s = (ahead src repeats 0 d msg2).map (s.looked m) := by
  obtain ⟨n, h0, hn⟩ := h.next
  rw [fetch_first h.absent hn h0, if_neg (by simp [h.checked]), if_neg (by simp [h.repeatable])]
  rcases hn₂ : src.next (d, msg2) with _ | ⟨e | n₂, d₂, m₂⟩
  · rw [ahead, hn₂]
    rfl
  · rw [ahead_error hn₂]
    rfl
  · by_cases ht : m₂.tcode = .RepeatBranch
    · rw [ahead_found hn₂ (repeats_eq_some.2 ⟨ht, rfl⟩)]
      simp only [Option.bind_some, ht, ne_eq, not_true, if_false]
      rfl
    · simp only [ahead, hn₂, Option.bind_some, ne_eq, ht, not_false_eq_true, if_true, repeats_eq_none.2 ht, Option.map_map]
      rfl

/-- A fetch that finds no branch does not look ahead. -/
theorem fetch_elsewhere (h : ∀ d m, ¬ s.Branches src d m) (msg2 msg2' : Msg) : trace_fetch_msg src msg2 s = trace_fetch_msg src msg2' s := by
  by_cases hp : s.msg_present = true
  · rw [fetch_present _ hp, fetch_present _ hp]
  have hp : s.msg_present = false := Bool.eq_false_of_not_eq_true hp
  have hnext : next_msg src s = _ := next_msg_apply s
  rcases hn : src.next (s.msg_decoder, s.msg) with _ | ⟨e | n, d, m⟩
  · rw [hn] at hnext
    simp only [trace_fetch_msg, Proc.get_bind_apply, hp, Bool.false_eq_true, if_false]
    rw [Proc.bind_none hnext, Proc.bind_none hnext]
  · rw [hn] at hnext
    simp only [trace_fetch_msg, Proc.get_bind_apply, hp, Bool.false_eq_true, if_false]
    rw [Proc.bind_error hnext, Proc.bind_error hnext]
  · by_cases h0 : n = 0
    · rw [hn, h0] at hnext
      simp only [trace_fetch_msg, Proc.get_bind_apply, hp, Bool.false_eq_true, if_false]
      rw [Proc.bind_ok hnext, Proc.bind_ok hnext]
      rfl
    · rw [fetch_first hp hn h0, fetch_first hp hn h0]
      by_cases hc : trace_check_msg m = false
      · rw [if_pos hc, if_pos hc]
      by_cases hb : repeatable m = false
      · rw [if_neg hc, if_pos hb, if_neg hc, if_pos hb]
      · exact absurd ⟨hp, ⟨n, h0, hn⟩, by simpa using hc, by simpa using hb⟩ (h d m)

/-- Two fetches do the same where their look-aheads have the same effect. -/
theorem fetch_same {msg2 msg2' : Msg} (h : ∀ d m, s.Branches src d m → ahead src repeats 0 d msg2 = ahead src repeats 0 d msg2') :
    trace_fetch_msg src msg2 s = trace_fetch_msg src msg2' s := by
  by_cases hb : ∃ d m, s.Branches src d m
  · obtain ⟨d, m, hb⟩ := hb
    rw [fetch_branch hb, fetch_branch hb, h d m hb]
  · exact fetch_elsewhere (fun d m hdm => hb ⟨d, m, hdm⟩) msg2 msg2'

/-- Two pulls do the same where their fetches do. -/
theorem pull_same {env env' : Env} {k : Nat} (hfetch : trace_fetch_msg src (env.msg2 k) s = trace_fetch_msg src (env'.msg2 k) s)
    (halloc : env.alloc = env'.alloc) : trace_pull_msg src env k s = trace_pull_msg src env' k s := by
  simp only [trace_pull_msg, push_element, halloc]
  rw [Proc.bind_apply, Proc.bind_apply, hfetch]

/-- What a fetch does is the stream's: the local message does not matter, a branch is repeated as the RepeatBranch
behind it says, and not otherwise, and a message of another type is delivered again. -/
structure FetchTells (src : Source σ) (s : TraceDecoder σ) : Prop where
  same : ∀ msg2 msg2', trace_fetch_msg src msg2 s = trace_fetch_msg src msg2' s
  hrepeat : ∀ d m, s.Branches src d m → ∀ msg2 r t, trace_fetch_msg src msg2 s = some (r, t) → t.msg.hrepeat = repetitions (follows src d)
  again : ∀ d m, s.Branches src d m → ∀ msg2 b t, trace_fetch_msg src msg2 s = some (.ok b, t) → ∀ m', follows src d = some m' →
    m'.tcode ≠ .RepeatBranch → Redelivers src t.msg_decoder m'

theorem TraceDecoder.Branches.unique {d' : σ} {m' : Msg} (h : s.Branches src d m) (h' : s.Branches src d' m') : d' = d ∧ m' = m := by
  obtain ⟨n, -, hn⟩ := h.next
  obtain ⟨n', -, hn'⟩ := h'.next
  rw [hn] at hn'
  cases hn'
  exact ⟨rfl, rfl⟩

theorem FetchTells.of_ahead (h : s.Branches src d m) (ha : AheadTells src repeats 0 d) : FetchTells src s := by
  constructor
  · intro msg2 msg2'
    rw [fetch_branch h, fetch_branch h, ha.same msg2 msg2']
  · intro d' m' h' msg2 r t ht
    obtain ⟨rfl, rfl⟩ := h.unique h'
    rw [fetch_branch h, Option.map_eq_some_iff] at ht
    obtain ⟨⟨e | k, d₁⟩, hd, he⟩ := ht
    · cases he
      rw [ha.failed msg2 e d₁ hd]
      rfl
    · cases he
      exact ha.told msg2 k d₁ hd
  · intro d' m' h' msg2 b t ht m₂ hm₂ htc
    obtain ⟨rfl, rfl⟩ := h.unique h'
    rw [fetch_branch h, Option.map_eq_some_iff] at ht
    obtain ⟨⟨e | k, d₁⟩, hd, he⟩ := ht
    · cases he
    · cases he
      exact ha.again msg2 k d₁ hd m₂ hm₂ (repeats_eq_none.2 htc)

end Fetch

/-- The look-ahead of a fetch is blurred. -/
def FetchBlurs (s : TraceDecoder MsgDecoder) : Prop := ∃ d m, s.Branches msg_source d m ∧ Blurs repeats_more d

theorem repeats_more_eq {m : Msg} : repeats_more m = true ↔ ∃ k, repeats m = some k ∧ k ≠ 0 := by
  simp only [repeats_more, Bool.and_eq_true, decide_eq_true_eq, repeats_eq_some]
  constructor
  · rintro ⟨ht, hk⟩
    exact ⟨m.hrepeat, ⟨ht, rfl⟩, hk⟩
  · rintro ⟨k, ⟨ht, rfl⟩, hk⟩
    exact ⟨ht, hk⟩

/-- Decoding a RepeatBranch writes its HREPEAT. -/
theorem Msg.Same.repeats {a b : Msg} (h : a.Same b) : repeats a = repeats b := by
  unfold nexusrv.repeats
  rw [h.1]
  split
  · rename_i hb
    have hcarried := h.2.2.1
    simp only [Msg.carried, h.1, hb, List.cons.injEq] at hcarried
    rw [UInt32.toNat_inj.1 hcarried.2.1]
  · rfl

theorem fetch_tells_iff {s : TraceDecoder MsgDecoder} (hinv : DecoderInv s.msg_decoder) : FetchTells msg_source s ↔ ¬ FetchBlurs s := by
  have hbehind : ∀ {d m}, s.Branches msg_source d m → DecoderInv d := by
    intro d m h
    obtain ⟨n, -, hn⟩ := h.next
    exact (msg_source_lawful.next hinv hn).1
  constructor
  · rintro htells ⟨d, m, h, hblurs⟩
    refine not_blurs (hbehind h) (fun m hm => repeats_eq_none.2 (by simp [hm])) (fun m => repeats_more_eq.1) ?_ ?_ hblurs
    · intro mem mem'
      have hsame := htells.same mem mem'
      rw [fetch_branch h, fetch_branch h] at hsame
      exact Option.map_injective (looked_injective s m) hsame
    · intro mem k d' hk
      exact htells.hrepeat d m h mem (.ok true) (s.branched m d' k) (by rw [fetch_branch h, hk]; rfl)
  · intro hclear
    by_cases h : ∃ d m, s.Branches msg_source d m
    · obtain ⟨d, m, h⟩ := h
      refine .of_ahead h (ahead_steady (hbehind h) (fun a b => Msg.Same.repeats) ?_ fun hblurs => hclear ⟨d, m, h, hblurs⟩)
      intro m k hk hmore
      refine Classical.byContradiction fun hne => ?_
      rw [repeats_more_eq.2 ⟨k, hk, hne⟩] at hmore
      cases hmore
    · have hno : ∀ d m, ¬ s.Branches msg_source d m := fun d m hdm => h ⟨d, m, hdm⟩
      exact ⟨fetch_elsewhere hno, fun d m hdm => absurd hdm (hno d m), fun d m hdm => absurd hdm (hno d m)⟩

/-! ## The look-ahead of `next_indirect` -/

/-- The owner that the next message names, behind an indirect branch. -/
def owner (m : Msg) : Option TraceOwnership := if m.tcode = .Ownership then some m.ownership else none

def has_owner (m : Msg) : Bool := (owner m).isSome

/-- What the look-ahead of `next_indirect` finds in its message. -/
def owned (m : Msg) : Option (Option TraceOwnership) := (owner m).map some

theorem owned_eq_none {m : Msg} : owned m = none ↔ m.tcode ≠ .Ownership := by
  unfold owned owner
  split <;> simp_all

theorem owned_eq_some {m : Msg} (h : m.tcode = .Ownership) : owned m = some (some m.ownership) := by
  simp [owned, owner, h]

/-- Decoding an Ownership message writes all its fields. -/
theorem Msg.Same.owned {a b : Msg} (h : a.Same b) : owned a = owned b := by
  by_cases hb : b.tcode = .Ownership
  · have hcarried := h.2.2.1
    simp only [Msg.carried, h.1, hb, List.cons.injEq, and_true] at hcarried
    obtain ⟨-, h1, h2, h3, h4⟩ := hcarried
    rw [owned_eq_some hb, owned_eq_some (h.1.trans hb), Msg.ownership, Msg.ownership, h1, h2, h3, UInt64.toNat_inj.1 h4]
  · rw [owned_eq_none.2 hb, owned_eq_none.2 (h.1 ▸ hb)]

section Indirect
variable {σ : Type} {src : Source σ} {s t u : TraceDecoder σ} {env env' : Env}

/-- What `next_indirect` makes of its look-ahead. -/
def TraceDecoder.led (src : Source σ) (u : TraceDecoder σ) (r : Except NexusError (Option TraceOwnership) × σ) :
    Except NexusError TraceIndirect × TraceDecoder σ :=
  (r.1.map (u.indirect src), { u.addressed.retired src with msg_decoder := r.2 })

theorem led_injective (u : TraceDecoder σ) : Function.Injective (u.led src) := by
  intro x y h
  obtain ⟨x, d⟩ := x
  obtain ⟨y, d'⟩ := y
  simp only [TraceDecoder.led, Prod.mk.injEq] at h
  have hd : d = d' := congrArg TraceDecoder.msg_decoder h.2
  rcases x with e | o <;> rcases y with e' | o'
  · cases h.1
    rw [hd]
  · cases h.1
  · cases h.1
  · have ho : o = o' := congrArg TraceIndirect.ownership (Except.ok.inj h.1)
    rw [hd, ho]

/-- `next_indirect` at a branch that can be retired, by its look-ahead. -/
theorem AtIndirect.ahead (h : AtIndirect u) (hret : Retirable u) (env : Env) :
    trace_next_indirect src env u = (ahead src owned none u.msg_decoder (env.msg2 1)).map (u.led src) := by
  have hdec : (u.addressed.retired src).msg_decoder = u.msg_decoder := by rw [retired_msg_decoder, addressed_msg_decoder]
  have hmsg2 : next_msg2 src (env.msg2 1) (u.addressed.retired src) = _ := next_msg2_apply _ _
  rw [hdec] at hmsg2
  rw [h.reads env hret]
  rcases hn : src.next (u.msg_decoder, env.msg2 1) with _ | ⟨e | n, d, m⟩
  · rw [hn] at hmsg2
    rw [Proc.bind_none hmsg2, nexusrv.ahead, hn]
    rfl
  · rw [hn] at hmsg2
    rw [Proc.bind_error hmsg2, ahead_error hn]
    rfl
  · rw [hn] at hmsg2
    rw [Proc.bind_ok hmsg2]
    by_cases ht : m.tcode = .Ownership
    · rw [ahead_found hn (owned_eq_some ht)]
      simp only [Proc.ite_apply, ne_eq, ht, not_true, if_false]
      rfl
    · simp only [nexusrv.ahead, hn, Option.bind_some, owned_eq_none.2 ht, Proc.ite_apply, ne_eq, ht, not_false_eq_true, if_true]
      rw [Proc.bind_apply, rewind_msg_apply]
      rcases src.rewind_last d with _ | d' <;> rfl

/-- Elsewhere `next_indirect` does not look ahead. -/
theorem next_indirect_elsewhere (hp : u.msg_present = true) (h : ¬ (AtIndirect u ∧ Retirable u)) (env env' : Env) :
    trace_next_indirect src env u = trace_next_indirect src env' u := by
  cases hsync : u.synced with
  | false => simp [trace_next_indirect, hsync]
  | true =>
    simp only [trace_next_indirect, Proc.get_bind_apply, hsync, Bool.not_true, Bool.false_eq_true, if_false]
    rw [Proc.bind_ok (fetch_present _ hp), Proc.bind_ok (fetch_present _ hp)]
    rcases hn : nothing_available u with _ | ⟨e | ⟨⟩, v⟩
    · rw [Proc.bind_none hn, Proc.bind_none hn]
    · rw [Proc.bind_error hn, Proc.bind_error hn]
    · rw [Proc.bind_ok hn, Proc.bind_ok hn]
      obtain ⟨hvu, hset, ⟨-, hex⟩ | ⟨hr, -⟩⟩ := nothing_available_cases hn
      · rw [hvu]
        simp only [Proc.get_bind_apply, Proc.ite_apply]
        split
        · rfl
        · rename_i hb
          have hindir : msg_is_indir_branch u.msg = true := by
            rw [Bool.or_eq_true, not_or] at hb
            simpa using hb.2
          -- the message cannot be retired
          have hnone : trace_retire_msg src u.addressed = none := by
            rcases hr : trace_retire_msg src u.addressed with _ | ⟨r, v⟩
            · rfl
            · have hret := addressed_retirable.1 (retire_msg_iff.1 hr).1
              exact absurd ⟨⟨hsync, hp, hset, hex, hindir⟩, hret⟩ h
          simp only [Proc.modify_bind_apply, Proc.get_bind_apply]
          change (trace_retire_msg src >>= _) u.addressed = (trace_retire_msg src >>= _) u.addressed
          rw [Proc.bind_none hnone, Proc.bind_none hnone]
      · cases hr

/-- Behind the fetch, `next_indirect` goes on as from the state that it left. -/
theorem next_indirect_fetched (hsync : s.synced = true) {b : Bool} (hf : trace_fetch_msg src (env.msg2 0) s = some (.ok b, u)) :
    trace_next_indirect src env s = trace_next_indirect src env u := by
  have hfetched := fetch_cases hf
  have hu : u.synced = true := hfetched.synced.trans hsync
  simp only [trace_next_indirect, Proc.get_bind_apply, hsync, hu, Bool.not_true, Bool.false_eq_true, if_false]
  rw [Proc.bind_ok hf, Proc.bind_ok (fetch_present _ hfetched.filled)]

/-- What `next_indirect` does is the stream's, behind a fetch that leaves `u`: the local message does not matter, the
owner is the one that the next message names, and a message of another type is delivered again. -/
structure IndirectTells (src : Source σ) (s : TraceDecoder σ) : Prop where
  same : ∀ env env', trace_next_indirect src env s = trace_next_indirect src env' s
  ownership : ∀ msg2 b u, Fetched src msg2 s (.ok b) u → ∀ env i t, trace_next_indirect src env s = some (.ok i, t) →
    i.ownership = (follows src u.msg_decoder).bind owner
  again : ∀ msg2 b u, Fetched src msg2 s (.ok b) u → ∀ env i t, trace_next_indirect src env s = some (.ok i, t) →
    ∀ m, follows src u.msg_decoder = some m → m.tcode ≠ .Ownership → Redelivers src t.msg_decoder m

end Indirect

/-- The look-ahead of `next_indirect` is blurred, where there is an indirect branch to retire. -/
def IndirectBlurs (s : TraceDecoder MsgDecoder) : Prop :=
  ∃ msg2 b u, Fetched msg_source msg2 s (.ok b) u ∧ AtIndirect u ∧ Retirable u ∧ Blurs has_owner u.msg_decoder

theorem has_owner_eq {m : Msg} : has_owner m = true ↔ ∃ o, owned m = some o ∧ o ≠ none := by
  unfold has_owner owned
  rcases owner m with _ | o
  · simp
  · simp

theorem owned_getD (next : Option Msg) : (next.bind owned).getD none = next.bind owner := by
  rcases next with _ | m
  · rfl
  · simp only [Option.bind_some, owned]
    rcases owner m with _ | o <;> rfl

/-- An indirect branch that is returned was buffered behind the fetch, and could be retired. -/
theorem indirect_gets {s t : TraceDecoder MsgDecoder} {env : Env} {i : TraceIndirect}
    (h : trace_next_indirect msg_source env s = some (.ok i, t)) :
    ∃ b u, s.synced = true ∧ Fetched msg_source (env.msg2 0) s (.ok b) u ∧ AtIndirect u ∧ Retirable u := by
  cases next_indirect_cases h with
  | other b u n d d' m hsync hf hset hex hind hret => exact ⟨b, u, hsync, hf, ⟨hf.synced.trans hsync, hf.filled, hset, hex, hind⟩, hret⟩
  | ownership b u n d m hsync hf hset hex hind hret => exact ⟨b, u, hsync, hf, ⟨hf.synced.trans hsync, hf.filled, hset, hex, hind⟩, hret⟩

/-- From where the call has one fetch to do, `next_indirect` is its look-ahead. -/
theorem indirect_led {s u : TraceDecoder MsgDecoder} {b : Bool} (hsync : s.synced = true)
    (hf : ∀ msg2, trace_fetch_msg msg_source msg2 s = some (.ok b, u)) (hu : AtIndirect u) (hret : Retirable u) (env : Env) :
    trace_next_indirect msg_source env s = (ahead msg_source owned none u.msg_decoder (env.msg2 1)).map (u.led msg_source) := by
  rw [next_indirect_fetched hsync (hf _), hu.ahead hret]

/-- Behind a fetch that is not blurred. -/
theorem indirect_tells_iff {s : TraceDecoder MsgDecoder} (hinv : DecoderInv s.msg_decoder) (hfetch : ¬ FetchBlurs s) :
    IndirectTells msg_source s ↔ ¬ IndirectBlurs s := by
  have hsame := ((fetch_tells_iff hinv).2 hfetch).same
  -- what one fetch leaves, every fetch leaves
  have hall : ∀ {msg2 b u}, Fetched msg_source msg2 s (.ok b) u → ∀ msg2', trace_fetch_msg msg_source msg2' s = some (.ok b, u) := by
    intro msg2 b u hf msg2'
    rw [hsame msg2' msg2]
    exact fetch_of hf
  have hbehind : ∀ {msg2 b u}, Fetched msg_source msg2 s (.ok b) u → DecoderInv u.msg_decoder := fun hf => (hf.left msg_source_lawful hinv).1
  have hdet : ∀ {msg2 msg2' b b' u u'}, Fetched msg_source msg2 s (.ok b) u → Fetched msg_source msg2' s (.ok b') u' → u' = u := by
    intro msg2 msg2' b b' u u' hf hf'
    have h := hall hf msg2'
    rw [fetch_of hf'] at h
    cases h
    rfl
  constructor
  · rintro htells ⟨msg2, b, u, hf, hu, hret, hblurs⟩
    have hsync : s.synced = true := by rw [← hf.synced, hu.synced]
    have hled := indirect_led hsync (hall hf) hu hret
    refine not_blurs (hbehind hf) (fun m hm => owned_eq_none.2 (by simp [hm])) (fun m => has_owner_eq.1) ?_ ?_ hblurs
    · intro mem mem'
      have h := htells.same ⟨fun _ => mem, fun _ => true, fun _ => none⟩ ⟨fun _ => mem', fun _ => true, fun _ => none⟩
      rw [hled, hled] at h
      exact Option.map_injective (led_injective u) h
    · intro mem o d' ho
      rw [owned_getD]
      refine htells.ownership msg2 b u hf ⟨fun _ => mem, fun _ => true, fun _ => none⟩ (u.indirect msg_source o)
        (u.led msg_source (.ok o, d')).2 ?_
      rw [hled]
      change (ahead msg_source owned none u.msg_decoder mem).map _ = _
      rw [ho]
      rfl
  · intro hclear
    have hahead : ∀ {msg2 b u}, Fetched msg_source msg2 s (.ok b) u → AtIndirect u → Retirable u →
        AheadTells msg_source owned none u.msg_decoder := by
      intro msg2 b u hf hu hret
      refine ahead_steady (hbehind hf) (fun a b => Msg.Same.owned) ?_ fun hblurs => hclear ⟨msg2, b, u, hf, hu, hret, hblurs⟩
      intro m o ho hno
      refine Classical.byContradiction fun hne => ?_
      rw [has_owner_eq.2 ⟨o, ho, hne⟩] at hno
      cases hno
    have hgets : ∀ {msg2 b u}, Fetched msg_source msg2 s (.ok b) u → ∀ {env i t}, trace_next_indirect msg_source env s = some (.ok i, t) →
        ∃ o d', ahead msg_source owned none u.msg_decoder (env.msg2 1) = some (.ok o, d') ∧ i.ownership = o ∧ t.msg_decoder = d' ∧
          AheadTells msg_source owned none u.msg_decoder := by
      intro msg2 b u hf env i t h
      obtain ⟨b', u', hsync, hf', hu, hret⟩ := indirect_gets h
      obtain rfl := hdet hf hf'
      rw [indirect_led hsync (hall hf) hu hret, Option.map_eq_some_iff] at h
      obtain ⟨⟨e | o, d'⟩, hd, he⟩ := h
      · cases he
      · cases he
        exact ⟨o, d', hd, rfl, rfl, hahead hf hu hret⟩
    constructor
    · intro env env'
      cases hsync : s.synced with
      | false => simp [trace_next_indirect, hsync]
      | true =>
        have hfetched := hsame (env.msg2 0) (env'.msg2 0)
        rcases hf : trace_fetch_msg msg_source (env.msg2 0) s with _ | ⟨e | b, u⟩
        · rw [hf] at hfetched
          simp only [trace_next_indirect, Proc.get_bind_apply, hsync, Bool.not_true, Bool.false_eq_true, if_false]
          rw [Proc.bind_none hf, Proc.bind_none hfetched.symm]
        · rw [hf] at hfetched
          simp only [trace_next_indirect, Proc.get_bind_apply, hsync, Bool.not_true, Bool.false_eq_true, if_false]
          rw [Proc.bind_error hf, Proc.bind_error hfetched.symm]
        · rw [hf] at hfetched
          rw [next_indirect_fetched hsync hf, next_indirect_fetched hsync hfetched.symm]
          have hfu := fetch_cases hf
          by_cases hu : AtIndirect u ∧ Retirable u
          · rw [hu.1.ahead hu.2, hu.1.ahead hu.2, (hahead hfu hu.1 hu.2).same (env.msg2 1) (env'.msg2 1)]
          · exact next_indirect_elsewhere hfu.filled hu env env'
    · intro msg2 b u hf env i t h
      obtain ⟨o, d', hd, rfl, -, ha⟩ := hgets hf h
      rw [ha.told _ _ _ hd, owned_getD]
    · intro msg2 b u hf env i t h m hm htc
      obtain ⟨o, d', hd, -, rfl, ha⟩ := hgets hf h
      exact ha.again _ _ _ hd m hm (owned_eq_none.2 htc)

/-! ## Whole calls -/

section Place
variable {σ : Type} {src : Source σ}

/-- The place of the look-ahead: behind the next message, where it is a branch without
sync; ResourceFull messages in front of it are pulled first. -/
inductive LookPlace (src : Source σ) : σ → Msg → σ → Prop where
  | here {d m n d' m'} : src.next (d, m) = some (.ok n, d', m') → n ≠ 0 → repeatable m' = true → LookPlace src d m d'
  | behind {d m n d' m' d''} : src.next (d, m) = some (.ok n, d', m') → n ≠ 0 → msg_is_res m' = true → LookPlace src d' m' d'' →
      LookPlace src d m d''

def TraceDecoder.LooksAt (src : Source σ) (s : TraceDecoder σ) (d : σ) : Prop :=
  s.msg_present = false ∧ LookPlace src s.msg_decoder s.msg d

/-- A look-ahead behind a pull is one in front of it. -/
theorem Pulled.looks {env : Env} {k : Nat} {s t : TraceDecoder σ} {b : Bool} (h : Pulled src env k s (.ok b) t) (hset : s.settled) {d : σ}
    (hd : t.LooksAt src d) : s.LooksAt src d := by
  cases h with
  | other b _ hf => exact nomatch hd.1.symm.trans hf.filled
  | taken b u e hf hres =>
    have hp : s.msg_present = false := by
      cases hf with
      | present hp => exact nomatch (hset hp).symm.trans hres
      | _ => assumption
    obtain ⟨n, d', m, hn, hn0, hd', hm⟩ := hf.next_res hp hres
    have hplace := hd.2
    rw [show (u.absorbed e).msg_decoder = d' from hd', show (u.absorbed e).msg = m from hm] at hplace
    exact ⟨hp, .behind hn hn0 (hm ▸ hres) hplace⟩

end Place

section Calls
variable {α : Type} {s t : TraceDecoder MsgDecoder} {env env' : Env}

/-- No look-ahead of the pulls from here on is blurred. -/
def TraceDecoder.Sees (s : TraceDecoder MsgDecoder) : Prop := ∀ d, s.LooksAt msg_source d → ¬ Blurs repeats_more d

theorem TraceDecoder.Sees.fetch (h : s.Sees) (hinv : DecoderInv s.msg_decoder) (msg2 msg2' : Msg) :
    trace_fetch_msg msg_source msg2 s = trace_fetch_msg msg_source msg2' s := by
  refine ((fetch_tells_iff hinv).2 ?_).same msg2 msg2'
  rintro ⟨d, m, hb, hblurs⟩
  obtain ⟨n, h0, hn⟩ := hb.next
  exact h d ⟨hb.absent, .here hn h0 hb.repeatable⟩ hblurs

theorem TraceDecoder.Sees.pull (h : s.Sees) (hinv : DecoderInv s.msg_decoder) (halloc : env.alloc = env'.alloc) (k : Nat) :
    trace_pull_msg msg_source env k s = trace_pull_msg msg_source env' k s :=
  pull_same (h.fetch hinv (env.msg2 k) (env'.msg2 k)) halloc

/-- The loop of two calls that find other local messages is the same. -/
theorem pull_until_sees {done : Trace MsgDecoder (Option α)} (hasks : Asks done) (halloc : env.alloc = env'.alloc) (fuel : Nat) :
    ∀ {k : Nat} {rc : Bool} {s : TraceDecoder MsgDecoder}, s.Sees → DecoderInv s.msg_decoder →
      pull_until msg_source env done fuel k rc s = pull_until msg_source env' done fuel k rc s := by
  induction fuel with
  | zero => exact fun _ _ => rfl
  | succ fuel ih =>
    intro k rc s hs hinv
    rw [pull_until, pull_until, Proc.bind_apply, Proc.bind_apply]
    rcases hd : done s with _ | ⟨e | _ | a, t⟩
    · rfl
    · rfl
    · obtain ⟨-, hts, hset⟩ | ⟨a, ha⟩ := hasks _ _ _ hd
      · rw [hts]
        simp only [Proc.ite_apply]
        split
        · rfl
        · rw [Proc.bind_apply, Proc.bind_apply, ← hs.pull hinv halloc k]
          rcases hp : trace_pull_msg msg_source env k s with _ | ⟨e | b, u⟩
          · rfl
          · rfl
          · have hpulled := pull_cases hp
            exact ih (fun d hd' => hs d (hpulled.looks hset hd')) (hpulled.left msg_source_lawful hinv hset).1
      · cases ha
    · rfl

theorem try_retire_sees (hs : s.Sees) (hinv : DecoderInv s.msg_decoder) (halloc : env.alloc = env'.alloc) (icnt : Nat) :
    trace_try_retire msg_source env icnt s = trace_try_retire msg_source env' icnt s := by
  simp only [trace_try_retire, Proc.get_bind_apply, Proc.ite_apply]
  rw [Proc.bind_apply, Proc.bind_apply, pull_until_sees (asks_icnt _) halloc _ hs hinv]

theorem next_tnt_sees (hs : s.Sees) (hinv : DecoderInv s.msg_decoder) (halloc : env.alloc = env'.alloc) :
    trace_next_tnt msg_source env s = trace_next_tnt msg_source env' s := by
  simp only [trace_next_tnt, Proc.get_bind_apply, Proc.ite_apply]
  rw [Proc.bind_apply, Proc.bind_apply, pull_until_sees asks_tnt halloc _ hs hinv]

end Calls

/-- In every state that a call goes through, what a fetch or `next_indirect` does is the stream's if and only if no Idle
message that the filter cannot tell comes next behind the branch, and the stream does not end there where the local
message is, or can be, of the type that is looked for. Where no look-ahead of the pulls is blurred, neither is the call. -/
theorem look_ahead_iff {s : TraceDecoder MsgDecoder} (hs : Reachable s) :
    (∀ c o u, Micros msg_source c s o u →
      (FetchTells msg_source u ∧ IndirectTells msg_source u ↔ ¬ FetchBlurs u ∧ ¬ IndirectBlurs u)) ∧
    (s.Sees → ∀ env env', env.alloc = env'.alloc → (∀ icnt, trace_try_retire msg_source env icnt s = trace_try_retire msg_source env' icnt s) ∧
      trace_next_tnt msg_source env s = trace_next_tnt msg_source env' s) := by
  constructor
  · intro c o u hu
    have hinv : DecoderInv u.msg_decoder := hu.keeps (fun _ _ _ hm hI => (hm.lawful msg_source_lawful hI).1) hs.inv
    constructor
    · rintro ⟨hfetch, hindirect⟩
      have hclear := (fetch_tells_iff hinv).1 hfetch
      exact ⟨hclear, (indirect_tells_iff hinv hclear).1 hindirect⟩
    · rintro ⟨hfetch, hindirect⟩
      exact ⟨(fetch_tells_iff hinv).2 hfetch, (indirect_tells_iff hinv hfetch).2 hindirect⟩
  · intro hsees env env' halloc
    exact ⟨try_retire_sees hsees hs.inv halloc, next_tnt_sees hsees hs.inv halloc⟩

theorem look_ahead_iff_one : ∃ s : TraceDecoder MsgDecoder, Reachable s ∧
    (∀ c o u, Micros msg_source c s o u →
      (FetchTells msg_source u ∧ IndirectTells msg_source u ↔ ¬ FetchBlurs u ∧ ¬ IndirectBlurs u)) ∧
    (s.Sees → ∀ env env', env.alloc = env'.alloc → (∀ icnt, trace_try_retire msg_source env icnt s = trace_try_retire msg_source env' icnt s) ∧
      trace_next_tnt msg_source env s = trace_next_tnt msg_source env' s) := by
  have hrun : (play msg_source [(env_of Msg.zero, .sync_reset)] slicing_start).map (fun r => (r.1, r.2.synced)) =
      some ([.ok (.reset (some ⟨2, 0⟩))], true) := by decide +kernel
  obtain ⟨s, hplay, -⟩ := play_shown (·.synced) hrun
  have hs : Reachable s := fresh_reachable rfl hplay
  exact ⟨s, hs, look_ahead_iff hs⟩

/-- An Ownership message that an earlier call left in memory. -/
def stale_owner : Msg := { Msg.zero with tcode := .Ownership }

/-- The stream ends behind the branch: a stale RepeatBranch repeats it, and a stale Ownership message owns it. -/
theorem look_ahead_stale :
    (¬ ∀ s, Reachable s → ∀ env env', env.alloc = env'.alloc → trace_try_retire msg_source env 3 s = trace_try_retire msg_source env' 3 s) ∧
    ¬ ∀ s, Reachable s → ∀ env env', trace_next_indirect msg_source env s = trace_next_indirect msg_source env' s := by
  constructor
  · intro hall
    have hstale : (play msg_source [(env_of Msg.zero, .sync_reset), (env_of stale_repeat, .try_retire 3)] slicing_start).map
        (fun r => (r.1, r.2.msg.hrepeat)) = some ([.ok (.reset (some ⟨2, 0⟩)), .ok (.retired 3 .None)], 7) := by decide +kernel
    have hclean : (play msg_source [(env_of Msg.zero, .sync_reset), (env_of Msg.zero, .try_retire 3)] slicing_start).map
        (fun r => (r.1, r.2.msg.hrepeat)) = some ([.ok (.reset (some ⟨2, 0⟩)), .ok (.retired 3 .None)], 0) := by decide +kernel
    obtain ⟨v, hv, hseven⟩ := play_shown (·.msg.hrepeat) hstale
    obtain ⟨s, h₀, hv₀⟩ := play_head hv
    obtain ⟨v₁, h₁, hv₁⟩ := play_head hv₀
    cases hv₁
    obtain ⟨v', hv', hnone⟩ := play_shown (·.msg.hrepeat) hclean
    obtain ⟨s', h₂, hv₂⟩ := play_head hv'
    obtain ⟨v₃, h₃, hv₃⟩ := play_head hv₂
    cases hv₃
    cases h₀.symm.trans h₂
    have hsame := hall s (fresh_reachable rfl (play_one h₀)) (env_of stale_repeat) (env_of Msg.zero) rfl
    rw [try_retire_of_exec h₁, try_retire_of_exec h₃] at hsame
    cases hsame
    exact absurd (hseven.symm.trans hnone) (by decide)
  · intro hall
    have hstale : (play msg_source [(env_of Msg.zero, .sync_reset), (env_of Msg.zero, .try_retire 5), (env_of stale_owner, .next_indirect)]
        jump_start).map (fun r => (r.1, r.2.synced)) =
        some ([.ok (.reset (some ⟨2, 0⟩)), .ok (.retired 5 .Indirect), .ok (.indirect ⟨4, false, false, some ⟨0, 0, 0, 0⟩⟩)], true) := by
      decide +kernel
    have hclean : (play msg_source [(env_of Msg.zero, .sync_reset), (env_of Msg.zero, .try_retire 5), (env_of Msg.zero, .next_indirect)]
        jump_start).map (fun r => (r.1, r.2.synced)) =
        some ([.ok (.reset (some ⟨2, 0⟩)), .ok (.retired 5 .Indirect), .ok (.indirect ⟨4, false, false, none⟩)], true) := by decide +kernel
    obtain ⟨v, hv, -⟩ := play_shown (·.synced) hstale
    obtain ⟨s, h₀, hv₀⟩ := play_head hv
    obtain ⟨t, h₁, hv₁⟩ := play_head hv₀
    obtain ⟨w, h₂, -⟩ := play_head hv₁
    obtain ⟨v', hv', -⟩ := play_shown (·.synced) hclean
    obtain ⟨s', h₃, hv₃⟩ := play_head hv'
    cases h₀.symm.trans h₃
    obtain ⟨t', h₄, hv₄⟩ := play_head hv₃
    cases h₁.symm.trans h₄
    obtain ⟨w', h₅, -⟩ := play_head hv₄
    have hs : Reachable s := fresh_reachable rfl (play_one h₀)
    have ht : Reachable t := hs.play (play_one h₁)
    have hsame := hall t ht (env_of stale_owner) (env_of Msg.zero)
    have hexec : exec msg_source (env_of stale_owner) .next_indirect t = exec msg_source (env_of Msg.zero) .next_indirect t := by
      rw [exec, exec, Proc.map_apply, Proc.map_apply, hsame]
    rw [h₂, h₅] at hexec
    cases hexec

end nexusrv
