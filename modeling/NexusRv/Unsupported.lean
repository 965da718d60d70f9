import NexusRv.TraceTotal
/-!
# Unsupported messages

`-nexus_msg_unsupported` is raised at two places: by `trace_fetch_msg`, which puts the
message back, and by `trace_pull_msg`, which leaves it buffered.
-/

namespace nexusrv

section Unsupported
variable {σ α : Type} {src : Source σ} {I : σ → Prop} {s t : TraceDecoder σ}

/-- The message decoder itself calls no message unsupported. -/
def Source.Supports (src : Source σ) (I : σ → Prop) : Prop :=
  ∀ {d d' : σ} {m m' : Msg} {e : NexusError}, I d → src.next (d, m) = some (.error e, d', m') → e ≠ .msg_unsupported

theorem msg_source_supports : msg_source.Supports DecoderInv := fun hI h => msg_decoder_next_supports hI h

/-- Where a call that returns `-nexus_msg_unsupported` stops. -/
inductive Refused (src : Source σ) (I : σ → Prop) (t : TraceDecoder σ) : Prop where
  /-- the message is put back -/
  | back (d₀ d : σ) (mem m : Msg) (n : Nat) : I d₀ → t.msg_present = false → src.next (d₀, mem) = some (.ok n, d, m) → n ≠ 0 →
      trace_check_msg m = false → src.rewind_last d = some t.msg_decoder → Refused src I t
  /-- the ResourceFull message stays buffered -/
  | held : t.synced = true → t.msg_present = true → msg_is_res t.msg = true → res_element (t.sifive src) t.msg = none → Refused src I t

/-- `sync_reset` is refused in its loop: behind it the sync message is buffered, so that nothing is fetched. -/
theorem sync_reset_forwards {env : Env} (h : trace_sync_reset src env s = some (.error .msg_unsupported, t)) :
    s.synced = false ∧ Forwards src env 0 s (.error .msg_unsupported) t := by
  obtain ⟨-, he, -⟩ | ⟨hsync, ⟨e, he, hf⟩ | ⟨u, r', hf, hn, he⟩⟩ := sync_reset_cases h
  · cases he
  · cases he
    exact ⟨hsync, hf⟩
  · obtain ⟨hp, -⟩ := (hf.micros hsync).2.2 rfl
    rcases r' with e | y <;> cases he
    obtain ⟨e, he, hc⟩ | ⟨v, -, -, he, -⟩ := next_sync_cases hn
    · cases he
      cases hc with
      | fetch_failed e _ _ hf' =>
        cases hf' with
        | _ => exact nomatch hp.symm.trans ‹u.resynced.msg_present = false›
    · cases he

section Lawful
variable (hlaw : src.Lawful I) (hsup : src.Supports I)
include hlaw hsup

theorem Fetched.refused {msg2 : Msg} (h : Fetched src msg2 s (.error .msg_unsupported) t) (hI : I s.msg_decoder) : Refused src I t := by
  cases h with
  | failed e d m _ hn => exact absurd rfl (hsup hI hn)
  | unsupported n d d' m hp hn h0 hc hback => exact .back s.msg_decoder d s.msg m n hI hp hn h0 hc hback
  | ahead_failed n d m e d₂ m₂ _ hn _ _ _ hn₂ => exact absurd rfl (hsup (hlaw.next hI hn).1 hn₂)

theorem Pulled.refused {env : Env} {k : Nat} (h : Pulled src env k s (.error .msg_unsupported) t) (hI : I s.msg_decoder)
    (hsync : s.synced = true) : Refused src I t := by
  cases h with
  | failed e _ hf => exact hf.refused hlaw hsup hI
  | unsupported b _ hf hres hel => exact .held (hf.synced.trans hsync) hf.filled hres hel

theorem Loop.refused {env : Env} {done : Trace σ (Option α)} (hasks : Asks done) {k : Nat} {rc : Bool} {r : Except NexusError (Option α)}
    (h : Loop src env done k rc s r t) : I s.msg_decoder → s.synced = true → r = .error .msg_unsupported → Refused src I t := by
  induction h with
  | found => exact fun _ _ h => nomatch h
  | failed h =>
    intro _ _ _
    obtain ⟨hr, -⟩ | ⟨a, hr⟩ := hasks _ _ _ h <;> cases hr
  | stop => exact fun _ _ h => nomatch h
  | pull_failed h hpull =>
    intro hI hsync he
    cases he
    obtain ⟨-, hts, -⟩ | ⟨a, ha⟩ := hasks _ _ _ h
    · rw [hts] at hpull
      exact (pull_cases hpull).refused hlaw hsup hI hsync
    · cases ha
  | pull h hpull _ ih =>
    intro hI hsync he
    obtain ⟨-, hts, hset⟩ | ⟨a, ha⟩ := hasks _ _ _ h
    · rw [hts] at hpull
      have hp := pull_cases hpull
      exact ih (hp.left hlaw hI hset).1 (hp.synced.trans hsync) he
    · cases ha

theorem Checked.refused {env : Env} {kind : Msg → Bool} (h : Checked src env kind s (.error .msg_unsupported) t) (hI : I s.msg_decoder) :
    Refused src I t := by
  cases h with
  | fetch_failed e _ _ hf => exact hf.refused hlaw hsup hI

theorem Forwards.refused {env : Env} {k : Nat} {r : Except NexusError Unit} (h : Forwards src env k s r t) : I s.msg_decoder →
    r = .error .msg_unsupported → Refused src I t := by
  induction h with
  | failed hf =>
    intro hI he
    cases he
    exact hf.refused hlaw hsup hI
  | found => exact fun _ h => nomatch h
  | skip hf _ _ ih => exact fun hI he => ih (hf.left hlaw hI).1 he

theorem sync_reset_refused {env : Env} (hI : I s.msg_decoder) (h : trace_sync_reset src env s = some (.error .msg_unsupported, t)) :
    Refused src I t :=
  (sync_reset_forwards h).2.refused hlaw hsup hI rfl

/-- The calls of the trace decoder that read messages. -/
def Call.reads : Call → Bool
  | .push_call _ => false
  | .pop_ret => false
  | .add_timestamp _ => false
  | .skip => false
  | _ => true

theorem exec_refused {env : Env} {c : Call} (hc : c.reads = true) (hI : I s.msg_decoder)
    (h : exec src env c s = some (.error .msg_unsupported, t)) : Refused src I t := by
  have hmap : ∀ {β : Type} {f : β → Result} {x : Trace σ β}, (f <$> x) s = some (.error .msg_unsupported, t) →
      x s = some (.error .msg_unsupported, t) := by
    intro β f x h
    obtain ⟨r, hr, he⟩ := Proc.map_eq_some.1 h
    rcases r with e | b <;> cases he
    exact hr
  cases c with
  | sync_reset => exact sync_reset_refused hlaw hsup hI (hmap h)
  | try_retire icnt =>
    cases try_retire_cases (hmap h) with
    | failed e _ hsync hloop => exact hloop.refused hlaw hsup (asks_icnt _) hI hsync rfl
  | next_tnt =>
    cases next_tnt_cases (hmap h) with
    | failed e _ hsync hloop => exact hloop.refused hlaw hsup asks_tnt hI hsync rfl
  | next_indirect =>
    cases next_indirect_cases (hmap h) with
    | fetch_failed e _ _ hf => exact hf.refused hlaw hsup hI
    | ahead_failed b u e d m₂ _ hf _ _ _ _ hn => exact absurd rfl (hsup (hf.left hlaw hI).1 hn)
  | next_sync =>
    obtain ⟨e, he, hc⟩ | ⟨v, -, -, he, -⟩ := next_sync_cases (hmap h)
    · cases he
      exact hc.refused hlaw hsup hI
    · cases he
  | next_stop =>
    obtain ⟨e, he, hc⟩ | ⟨v, -, -, he, -⟩ := next_stop_cases (hmap h)
    · cases he
      exact hc.refused hlaw hsup hI
    · cases he
  | next_error =>
    cases next_error_cases (hmap h) with
    | fetch_failed e _ _ hf => exact hf.refused hlaw hsup hI
  | _ => cases hc

end Lawful

end Unsupported

end nexusrv
