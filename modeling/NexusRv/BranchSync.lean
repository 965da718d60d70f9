import NexusRv.Slicing
/-!
# The sync events of branch messages

The documentation of DirectSync and IndirectSync lets the caller use
`nexusrv_trace_next_sync` there, which is to discard the branch. The call shares
the check of the plain sync messages, which turns a branch away.
-/

namespace nexusrv

section BranchSync
variable {σ : Type} {src : Source σ} {s t : TraceDecoder σ}

/-- The events of a branch with sync. -/
def TraceEvent.branch_sync (ev : TraceEvent) : Bool := ev = .DirectSync || ev = .IndirectSync

/-- What the documentation says of `next_sync` at a branch with sync: the sync is returned and the branch
is discarded, as if it had been consumed first. -/
structure DiscardsBranch (src : Source σ) (env : Env) (s t : TraceDecoder σ) (sync : TraceSync) : Prop where
  returns : trace_next_sync src env s = some (.ok sync, t)
  event : sync = s.sync_event src
  timestamp : t.timestamp = s.msg.timestamp
  full_addr : t.full_addr = s.msg.xaddr
  return_stack : t.return_stack = retstack_clear s.return_stack
  consumed : t.msg_present = false
  direct : ∀ env₁ env₂ u b r v, trace_next_tnt src env₁ s = some (.ok b, u) → trace_next_sync src env₂ u = some (r, v) → r = .ok sync ∧ v = t
  indirect : ∀ env₁ env₂ u i r v, trace_next_indirect src env₁ s = some (.ok i, u) → trace_next_sync src env₂ u = some (r, v) →
    r = .ok sync ∧ v = { t with msg_decoder := u.msg_decoder }

/-- Where such an event is reported, the buffered message is a branch with sync and nothing is left in front of it. -/
structure AtBranchSync (t : TraceDecoder σ) : Prop where
  synced : t.synced = true
  present : t.msg_present = true
  settled : t.settled
  exhausted : t.Exhausted
  branch : msg_is_branch t.msg = true
  sync : msg_is_sync t.msg = true

theorem msg_event_branch_sync {m : Msg} (h : (msg_event m).branch_sync = true) : msg_is_branch m = true ∧ msg_is_sync m = true := by
  unfold msg_event at h
  split at h
  · refine ⟨‹_›, ?_⟩
    split at h
    · split at h
      · cases h
      · split at h
        · assumption
        · cases h
    · split at h
      · assumption
      · cases h
  · split at h
    · cases h
    · split at h <;> cases h

theorem event_branch_sync (h : t.event.branch_sync = true) : t.tnts_left = 0 ∧ msg_is_branch t.msg = true ∧ msg_is_sync t.msg = true := by
  unfold TraceDecoder.event at h
  split at h
  · cases h
  split at h
  · cases h
  · exact ⟨Decidable.of_not_not ‹_›, msg_event_branch_sync h⟩

/-- Once all that is left of the I-CNT is taken, nothing is left. -/
theorem take_all (hle : t.consumed_icnt ≤ t.icnt_total) :
    (t.take_icnt t.icnt_left).consumed_icnt = (t.take_icnt t.icnt_left).icnt_total := by
  have hown := t.msg.icnt.toNat_lt
  unfold TraceDecoder.icnt_left TraceDecoder.icnt_total at *
  unfold TraceDecoder.take_icnt
  split at hle
  · rename_i hi
    simp only [if_pos hi]
    split <;> dsimp only <;> omega
  · rename_i hi
    simp only [if_neg hi]
    split <;> dsimp only <;> omega

/-- Where `try_retire` reports an event, it has stopped at the message of the event, and taken all of the I-CNT. -/
structure AtEvent (ev : TraceEvent) (t : TraceDecoder σ) : Prop where
  synced : t.synced = true
  present : t.msg_present = true
  settled : t.settled
  icnt : t.consumed_icnt = t.icnt_total
  event : t.event = ev
  tnts_le : msg_is_error t.msg = false → t.consumed_tnts ≤ t.tnt_total

/-- Where `try_retire` returns, it has stopped at a message, or in front of some of the I-CNT. -/
theorem try_retire_stops {env : Env} {icnt n : Nat} {ev : TraceEvent} (h : trace_try_retire src env icnt s = some (.ok (n, ev), t)) :
    AtEvent ev t ∨ ev = .None ∧ ∃ u, Micros src (.try_retire icnt) s [] u ∧ u.synced = true ∧ u.settled ∧ n < u.icnt_left ∧
      (u.res_icnt < n → u.msg_present = true) ∧ t = u.take_icnt n := by
  cases try_retire_cases h with
  | early _ _ hsync hloop =>
    obtain ⟨u, hu, hst, hd⟩ := hloop.micros_found (c := .try_retire icnt) (asks_icnt _) rfl hsync
    obtain ⟨hset, -, ⟨-, hr, -⟩ | ⟨hlt, -, hp, hr, rfl⟩⟩ := retire_icnt_cases hd
    · cases hr
    · cases hr
      exact .inr ⟨rfl, u, hu, hst, hset, hlt, hp, rfl⟩
  | event u hsync hloop hp hset hle hone htnt =>
    obtain ⟨-, hst, -⟩ := hloop.micros_stop (c := .try_retire icnt) (asks_icnt _) rfl hsync
    obtain ⟨h1, h2, -, h4, h5, h6, -⟩ := take_icnt_frame u.icnt_left u
    have htotal : (u.take_icnt u.icnt_left).tnt_total = u.tnt_total := by
      unfold TraceDecoder.tnt_total
      rw [h1, h2, h5]
    have hleft : (u.take_icnt u.icnt_left).tnts_left = u.tnts_left := by
      rw [TraceDecoder.tnts_left, htotal, h6]
      rfl
    left
    constructor
    · rw [h4, hst]
    · rw [h1, hp]
    · exact take_settled hset
    · exact take_all hle
    · unfold TraceDecoder.event
      rw [h2, hleft]
    · rw [h2, htotal, h6]
      exact htnt

theorem try_retire_event {env : Env} {icnt n : Nat} {ev : TraceEvent} (hev : ev ≠ .None)
    (h : trace_try_retire src env icnt s = some (.ok (n, ev), t)) : AtEvent ev t :=
  (try_retire_stops h).resolve_right fun ⟨hnone, _⟩ => hev hnone

theorem AtEvent.not_error {ev : TraceEvent} (h : AtEvent ev t) (hev : ev ≠ .Error) : msg_is_error t.msg = false := by
  refine Bool.eq_false_iff.2 fun he => hev ?_
  rw [← h.event, TraceDecoder.event, if_pos he]

/-- With no TNT left, nothing is left. -/
theorem AtEvent.exhausted {ev : TraceEvent} (h : AtEvent ev t) (hev : ev ≠ .Error) (h0 : t.tnts_left = 0) : t.Exhausted :=
  ⟨by rw [TraceDecoder.icnt_left, h.icnt, Nat.sub_self], h0, h.icnt.le, h.tnts_le (h.not_error hev)⟩

theorem try_retire_branch_sync {env : Env} {icnt n : Nat} {ev : TraceEvent} (hev : ev.branch_sync = true)
    (h : trace_try_retire src env icnt s = some (.ok (n, ev), t)) : AtBranchSync t := by
  have hne : ev ≠ .None ∧ ev ≠ .Error := by
    constructor <;> rintro rfl <;> cases hev
  have hat : AtEvent ev t := try_retire_event hne.1 h
  obtain ⟨h0, hbranch, hy⟩ := event_branch_sync (t := t) (by rw [hat.event]; exact hev)
  exact ⟨hat.synced, hat.present, hat.settled, hat.exhausted hne.2 h0, hbranch, hy⟩

/-- Nothing is left: the checks of `next_indirect`, `next_sync` and `next_stop` pass. -/
theorem nothing_left (hset : t.settled) (hex : t.Exhausted) : nothing_available t = some (.ok (), t) := by
  have hicnt : trace_available_icnt t = some (.ok t.icnt_left, t) := available_icnt_iff.2 ⟨hset, hex.icnt_le, rfl, rfl⟩
  have htnts : trace_available_tnts t = some (.ok t.tnts_left, t) := available_tnts_iff.2 ⟨hset, hex.tnts_le, rfl, rfl⟩
  rw [nothing_available, Proc.bind_ok hicnt, hex.icnt, Proc.ite_apply, if_neg (by simp), Proc.bind_ok htnts, hex.tnts,
    Proc.ite_apply, if_neg (by simp)]
  rfl

theorem fetch_present (msg2 : Msg) (hp : t.msg_present = true) : trace_fetch_msg src msg2 t = some (.ok false, t) := by
  simp [trace_fetch_msg, hp]

/-- `next_sync` turns the message away and changes nothing. -/
theorem AtBranchSync.next_sync (h : AtBranchSync t) (env : Env) : trace_next_sync src env t = some (.error .trace_mismatch, t) := by
  have hfetch : trace_fetch_msg src (env.msg2 0) t = some (.ok false, t) := fetch_present _ h.present
  have hnothing : nothing_available t = some (.ok (), t) := nothing_left h.settled h.exhausted
  rw [trace_next_sync, Proc.get_bind_apply, h.synced]
  simp only [Bool.not_true, Bool.false_eq_true, if_false]
  rw [Proc.bind_ok hfetch, Proc.bind_ok hnothing, Proc.get_bind_apply, h.branch, Bool.or_true, if_pos rfl]
  rfl

end BranchSync

/-- Wherever `try_retire` has just reported DirectSync or IndirectSync, `next_sync` reports a mismatch, changes nothing
and so does not discard the branch. -/
theorem next_sync_mismatch {s t : TraceDecoder MsgDecoder} {env : Env} {icnt n : Nat} {ev : TraceEvent} (_ : Reachable s)
    (h : trace_try_retire msg_source env icnt s = some (.ok (n, ev), t)) (hev : ev.branch_sync = true) (env' : Env) :
    trace_next_sync msg_source env' t = some (.error .trace_mismatch, t) ∧ ¬ ∃ u sync, DiscardsBranch msg_source env' t u sync := by
  have hnext : trace_next_sync msg_source env' t = some (.error .trace_mismatch, t) :=
    (try_retire_branch_sync hev h).next_sync env'
  refine ⟨hnext, fun ⟨u, sync, hd⟩ => ?_⟩
  have hok := hd.returns
  rw [hnext] at hok
  cases hok

def branch_sync_start : TraceDecoder MsgDecoder := fresh_decoder plain_cfg [0x24, 0x01, 0x07, 0x2c, 0x4c, 0x05, 0x0b]

theorem branch_sync_run : ∃ s t : TraceDecoder MsgDecoder, Reachable s ∧
    trace_try_retire msg_source (env_of Msg.zero) 8 s = some (.ok (5, .DirectSync), t) := by
  have hrun : ((play msg_source [(env_of Msg.zero, .sync_reset)] branch_sync_start).bind fun p =>
      (play msg_source [(env_of Msg.zero, .try_retire 8)] p.2).map fun q => (p.1, (), q.1, ())) =
      some ([.ok (.reset (some ⟨2, 0⟩))], (), [.ok (.retired 5 .DirectSync)], ()) := by decide +kernel
  obtain ⟨s, t, hs, h, -⟩ := exec_shown (fun _ => ()) (fun _ => ()) hrun
  exact ⟨s, t, fresh_reachable rfl hs, try_retire_of_exec h⟩

/-- A DirectBranchSync message, five instructions behind a sync. -/
theorem next_sync_mismatch_five : ∃ s t : TraceDecoder MsgDecoder,
    trace_try_retire msg_source (env_of Msg.zero) 8 s = some (.ok (5, .DirectSync), t) ∧
      trace_next_sync msg_source (env_of Msg.zero) t = some (.error .trace_mismatch, t) ∧
      ¬ ∃ u sync, DiscardsBranch msg_source (env_of Msg.zero) t u sync := by
  obtain ⟨s, t, hs, h⟩ := branch_sync_run
  exact ⟨s, t, h, next_sync_mismatch hs h rfl (env_of Msg.zero)⟩

theorem branch_not_discarded : ¬ ∀ (s t : TraceDecoder MsgDecoder) (env env' : Env) (icnt n : Nat) (ev : TraceEvent), Reachable s →
    trace_try_retire msg_source env icnt s = some (.ok (n, ev), t) → ev.branch_sync = true →
    ∃ u sync, DiscardsBranch msg_source env' t u sync := by
  intro hall
  obtain ⟨s, t, hs, h⟩ := branch_sync_run
  obtain ⟨u, sync, hd⟩ := hall s t _ (env_of Msg.zero) 8 5 .DirectSync hs h rfl
  have hok := hd.returns
  rw [(try_retire_branch_sync rfl h).next_sync] at hok
  cases hok

end nexusrv
