import NexusRv.TraceTotal
/-!
# The order of the TNTs

The branches that `next_tnt` returns are the history bits of the messages, in the
order of the stream: what a call returns is the head of `pending`, and a message
that is pulled goes to its end.
-/

namespace nexusrv

/-! ## The history bits as a list -/

/-- The history bits of a HIST, from the bit below its stop bit down to bit 0. -/
def history (hist : UInt32) : List Bool := (List.range (msg_hist_bits hist)).reverse.map (hist_bit hist)

@[simp] theorem history_length (hist : UInt32) : (history hist).length = msg_hist_bits hist := by simp [history]

theorem history_zero : history 0 = [] := rfl
theorem history_two : history 2 = [false] := by decide
theorem history_three : history 3 = [true] := by decide

/-- The bit that is consumed behind `i` others. -/
theorem history_drop {hist : UInt32} {i : Nat} (h : i < msg_hist_bits hist) :
    (history hist).drop i = hist_bit hist (msg_hist_bits hist - (i + 1)) :: (history hist).drop (i + 1) := by
  have hlt : i < (history hist).length := by rwa [history_length]
  rw [List.drop_eq_getElem_cons hlt]
  have hget : (history hist)[i] = hist_bit hist (msg_hist_bits hist - (i + 1)) := by
    simp only [history, List.getElem_map, List.getElem_reverse, List.getElem_range, List.length_range]
    rw [Nat.sub_sub, Nat.add_comm 1 i]
  rw [hget]

/-- The history bits of an element, once for each repetition. -/
def HistElement.tnts (e : HistElement) : List Bool := (List.replicate e.repeat_ (history e.hist)).flatten

theorem tnts_length (e : HistElement) : e.tnts.length = e.bits := by
  simp [HistElement.tnts, HistElement.bits]

/-- The first repetition, and the others. -/
theorem tnts_succ {e : HistElement} (h : e.repeat_ ≠ 0) (time : UInt64) :
    e.tnts = history e.hist ++ HistElement.tnts ⟨e.hist, e.repeat_ - 1, time⟩ := by
  obtain ⟨n, hn⟩ := Nat.exists_eq_succ_of_ne_zero h
  rw [HistElement.tnts, HistElement.tnts, hn, List.replicate_succ, List.flatten_cons]
  rfl

def queue_tnts (l : List HistElement) : List Bool := l.flatMap HistElement.tnts

theorem queue_tnts_length (l : List HistElement) : (queue_tnts l).length = queue_bits l := by
  rw [queue_tnts, List.length_flatMap, queue_bits]
  exact congrArg List.sum (List.map_congr_left fun e _ => tnts_length e)

theorem queue_tnts_concat (l : List HistElement) (e : HistElement) : queue_tnts (l ++ [e]) = queue_tnts l ++ e.tnts := by
  rw [queue_tnts, List.flatMap_append, List.flatMap_singleton]
  rfl

theorem queue_tnts_unspent (l : List HistElement) : queue_tnts (unspent l) = queue_tnts l := by
  induction l with
  | nil => rfl
  | cons e l ih =>
    by_cases he : e.hist = 0
    · have hnone : e.tnts = [] := by rw [HistElement.tnts, he, history_zero, List.flatten_replicate_nil]
      rw [unspent_zero he, ih, queue_tnts, queue_tnts, List.flatMap_cons, hnone, List.nil_append]
    · rw [unspent_ne he]

section Pending
variable {σ : Type} {src : Source σ} {s t : TraceDecoder σ}

/-- The history bits of the buffered message. -/
def TraceDecoder.own_tnts (s : TraceDecoder σ) : List Bool := if s.msg_present && msg_has_hist s.msg then history s.msg.hist else []

/-- The history bits that are queued and not consumed, and those of the buffered message. -/
def TraceDecoder.pending (s : TraceDecoder σ) : List Bool := (queue_tnts s.res_hists ++ s.own_tnts).drop s.consumed_tnts

theorem own_tnts_length (s : TraceDecoder σ) : s.own_tnts.length = s.buffered_bits := by
  unfold TraceDecoder.own_tnts TraceDecoder.buffered_bits Msg.own_bits
  cases s.msg_present <;> cases msg_has_hist s.msg <;> simp

theorem Counted.queue_empty (hs : Counted s) (h0 : s.res_tnts = 0) : queue_tnts s.res_hists = [] := by
  rw [← List.length_eq_zero_iff, queue_tnts_length]
  exact hs.sum.symm.trans h0

/-- Nothing is put into the queue but what was in it, with fewer repetitions. -/
theorem TookTnt.elems {b : Bool} (h : TookTnt src s b t) (hs : ∀ e ∈ s.res_hists, e.hist ≠ 0 → msg_hist_bits e.hist ≠ 0) :
    ∀ e ∈ t.res_hists, e.hist ≠ 0 → msg_hist_bits e.hist ≠ 0 := by
  cases h with
  | own => exact fun e he => hs e (mem_of_unspent he)
  | bit => exact fun e he => hs e (mem_of_unspent he)
  | last x rest _ hu =>
    intro e he
    have he : e ∈ if x.repeat_ - 1 = 0 then rest else ⟨x.hist, x.repeat_ - 1, time_left (s.sifive src) x.timestamp⟩ :: rest := he
    have hrest : ∀ e ∈ x :: rest, e.hist ≠ 0 → msg_hist_bits e.hist ≠ 0 := fun e he => hs e (mem_of_unspent (hu ▸ he))
    split at he
    · exact hrest e (List.mem_cons_of_mem _ he)
    · rcases List.mem_cons.1 he with rfl | he
      · exact hrest x List.mem_cons_self
      · exact hrest e (List.mem_cons_of_mem _ he)

/-- `consume_tnt` returns the first of the pending bits. -/
theorem TookTnt.pending {b : Bool} (h : TookTnt src s b t) (hs : Counted s) : s.pending = b :: t.pending := by
  cases h with
  | own h0 hp hh hlt =>
    have hlist : s.own_tnts = history s.msg.hist := by rw [TraceDecoder.own_tnts, hp, hh]; rfl
    change _ = _ :: (queue_tnts (unspent s.res_hists) ++ s.own_tnts).drop (s.consumed_tnts + 1)
    rw [TraceDecoder.pending, queue_tnts_unspent, hs.queue_empty h0, List.nil_append, hlist, history_drop hlt]
  | bit e rest h0 hu hlt =>
    have he := hs.elems e (mem_of_unspent (hu ▸ List.mem_cons_self))
    have hle : s.consumed_tnts + 1 ≤ (history e.hist).length := by rw [history_length]; omega
    have hqueue : queue_tnts (unspent s.res_hists) = history e.hist ++ (HistElement.tnts ⟨e.hist, e.repeat_ - 1, 0⟩ ++ queue_tnts rest) := by
      rw [hu, queue_tnts, List.flatMap_cons, tnts_succ he.1 0, List.append_assoc]
      rfl
    change _ = _ :: (queue_tnts (unspent s.res_hists) ++ s.own_tnts).drop (s.consumed_tnts + 1)
    rw [TraceDecoder.pending, ← queue_tnts_unspent, hqueue, List.append_assoc, List.drop_append_of_le_length (Nat.le_of_succ_le hle),
      List.drop_append_of_le_length hle, history_drop (Nat.lt_of_succ_lt hlt)]
    rfl
  | last e rest h0 hu hlast hle hrep =>
    have hlen : s.consumed_tnts + 1 = (history e.hist).length := by rw [history_length]; exact hlast
    have hqueue : queue_tnts (unspent s.res_hists) = history e.hist ++ (HistElement.tnts ⟨e.hist, e.repeat_ - 1, time_left (s.sifive src) e.timestamp⟩ ++
        queue_tnts rest) := by
      rw [hu, queue_tnts, List.flatMap_cons, tnts_succ hrep _, List.append_assoc]
      rfl
    have hpop : queue_tnts (if e.repeat_ - 1 = 0 then rest else ⟨e.hist, e.repeat_ - 1, time_left (s.sifive src) e.timestamp⟩ :: rest) =
        HistElement.tnts ⟨e.hist, e.repeat_ - 1, time_left (s.sifive src) e.timestamp⟩ ++ queue_tnts rest := by
      split
      · rename_i h1
        rw [h1]
        rfl
      · rfl
    change _ = _ :: (queue_tnts (if e.repeat_ - 1 = 0 then rest else _) ++ s.own_tnts).drop 0
    rw [hpop, TraceDecoder.pending, ← queue_tnts_unspent, hqueue, List.append_assoc, List.drop_append_of_le_length (by omega),
      history_drop (by omega), hlen, List.drop_length]
    rfl

end Pending

/-! ## The messages ahead -/

/-- The history bits that a message stands for: a HIST repeated HREPEAT times, or with `quirk_sifive` as many
branches not taken (8) or taken (9) as RDATA says; once the HIST of another message. -/
def msg_tnts (sifive : Bool) (m : Msg) : List Bool :=
  if msg_has_hist m then
    if msg_is_res m && m.hrepeat ≠ 0 then (List.replicate m.hrepeat.toNat (history m.hist)).flatten else history m.hist
  else if msg_is_res m && sifive && m.res_code = 8 then List.replicate m.res_data.toNat false
  else if msg_is_res m && sifive && m.res_code = 9 then List.replicate m.res_data.toNat true
  else []

theorem msg_tnts_res {sifive : Bool} {m : Msg} {e : HistElement} (hres : msg_is_res m = true) (h : res_element sifive m = some e) :
    msg_tnts sifive m = e.tnts := by
  have hcode : ∀ n, m.res_code = n → n = 8 ∨ n = 9 → msg_has_hist m = false := fun n hn h => by
    simp only [msg_is_res, decide_eq_true_eq] at hres
    rcases h with rfl | rfl <;> simp [msg_has_hist, hres, hn]
  unfold res_element at h
  unfold msg_tnts
  rw [hres]
  split at h
  · rename_i hi
    simp only [msg_is_res, decide_eq_true_eq] at hres
    simp only [msg_has_icnt, hres, decide_eq_true_eq] at hi
    cases h
    simp [msg_has_hist, hres, hi, HistElement.tnts, history_zero]
  split at h
  · rename_i hh
    cases h
    rw [if_pos hh, HistElement.tnts]
    by_cases h0 : m.hrepeat = 0 <;> simp [h0]
  split at h
  · rename_i hq
    simp only [Bool.and_eq_true, decide_eq_true_eq] at hq
    cases h
    rw [if_neg (by simp [hcode 8 hq.1.2 (.inl rfl)]), if_pos (by simp [hq.1.1, hq.1.2]), HistElement.tnts, history_two,
      List.flatten_replicate_singleton]
  split at h
  · rename_i hq
    simp only [Bool.and_eq_true, decide_eq_true_eq] at hq
    cases h
    rw [if_neg (by simp [hcode 9 hq.1.2 (.inr rfl)]), if_neg (by simp [hq.1.2]), if_pos (by simp [hq.1.1, hq.1.2]),
      HistElement.tnts, history_three, List.flatten_replicate_singleton]
  · cases h

/-- The messages that the stream delivers next; `m₀` is what the message to write holds. -/
inductive Delivers {σ : Type} (src : Source σ) : σ → Msg → List Msg → Prop where
  | nil {d m₀} : Delivers src d m₀ []
  | cons {d m₀ n d' m ms} : src.next (d, m₀) = some (.ok n, d', m) → n ≠ 0 → Delivers src d' m ms → Delivers src d m₀ (m :: ms)

theorem Delivers.head {σ : Type} {src : Source σ} {d d' : σ} {m₀ m m' : Msg} {ms : List Msg} {n : Nat} (h : Delivers src d m₀ (m :: ms))
    (hn : src.next (d, m₀) = some (.ok n, d', m')) : m' = m ∧ Delivers src d' m' ms := by
  cases h with
  | cons h _ hrest =>
    cases h.symm.trans hn
    exact ⟨rfl, hrest⟩

/-- The next messages, if there are so many. -/
def read_ahead {σ : Type} (src : Source σ) : Nat → σ → Msg → Option (List Msg)
  | 0, _, _ => some []
  | k + 1, d, m₀ =>
    match src.next (d, m₀) with
    | some (.ok (_ + 1), d', m) => (read_ahead src k d' m).map (m :: ·)
    | _ => none

theorem read_ahead_delivers {σ : Type} {src : Source σ} (k : Nat) : ∀ {d : σ} {m₀ : Msg} {ms : List Msg}, read_ahead src k d m₀ = some ms →
    Delivers src d m₀ ms := by
  induction k with
  | zero =>
    intro d m₀ ms h
    cases h
    exact .nil
  | succ k ih =>
    intro d m₀ ms h
    rw [read_ahead] at h
    split at h
    · obtain ⟨ms', h', rfl⟩ := Option.map_eq_some_iff.1 h
      exact .cons ‹_› (Nat.succ_ne_zero _) (ih h')
    · cases h

/-- ResourceFull messages, and a message with HIST behind them. -/
def HistLine (ms : List Msg) : Prop :=
  ∃ rs m, ms = rs ++ [m] ∧ (∀ r ∈ rs, msg_is_res r = true) ∧ msg_is_res m = false ∧ msg_has_hist m = true

theorem HistLine.cons {m : Msg} {ms : List Msg} (h : HistLine (m :: ms)) :
    (msg_is_res m = true ∧ HistLine ms) ∨ (msg_is_res m = false ∧ msg_has_hist m = true ∧ ms = []) := by
  obtain ⟨rs, m', he, hrs, hres, hh⟩ := h
  cases rs with
  | nil =>
    cases he
    exact .inr ⟨hres, hh, rfl⟩
  | cons r rs =>
    cases he
    exact .inl ⟨hrs _ List.mem_cons_self, rs, m', rfl, fun r hr => hrs r (List.mem_cons_of_mem _ hr), hres, hh⟩

theorem hist_not_direct {m : Msg} (hh : msg_has_hist m = true) : msg_is_dir_branch m = false := by
  unfold msg_has_hist at hh
  unfold msg_is_dir_branch msg_is_branch msg_is_indir_branch
  cases ht : m.tcode <;> simp_all

/-- An element with a HIST has a bit, if the message has. -/
theorem element_bits {sifive : Bool} {m : Msg} {e : HistElement} (h : res_element sifive m = some e)
    (hm : msg_has_hist m = true → msg_hist_bits m.hist ≠ 0) : e.hist ≠ 0 → msg_hist_bits e.hist ≠ 0 := by
  unfold res_element at h
  split at h
  · cases h
    exact fun h => absurd rfl h
  split at h
  · cases h
    exact fun _ => hm ‹_›
  split at h
  · cases h
    exact fun _ => show msg_hist_bits 2 ≠ 0 by decide
  split at h
  · cases h
    exact fun _ => show msg_hist_bits 3 ≠ 0 by decide
  · cases h

theorem HistLine.ne_nil {ms : List Msg} (h : HistLine ms) : ms ≠ [] := by
  obtain ⟨rs, m', rfl, -⟩ := h
  exact List.append_ne_nil_of_right_ne_nil _ (List.cons_ne_nil _ _)

section Line
variable {σ α : Type} {src : Source σ} {I : σ → Prop} {sifive : Bool} {s t : TraceDecoder σ} {ms : List Msg}

/-- `ms` is what is still ahead in the stream: nothing behind the message with HIST. -/
structure Lined (src : Source σ) (I : σ → Prop) (sifive : Bool) (s : TraceDecoder σ) (ms : List Msg) : Prop where
  synced : s.synced = true
  counted : Counted s
  booked : Booked s
  inv : I s.msg_decoder
  quirk : s.sifive src = sifive
  fits : s.queued_bits + s.buffered_bits + (ms.flatMap (msg_tnts sifive)).length < 2 ^ 32
  ahead : s.msg_present = false → HistLine ms ∧ Delivers src s.msg_decoder s.msg ms
  behind : s.msg_present = true → ms = [] ∧ msg_is_res s.msg = false ∧ msg_is_dir_branch s.msg = false
  elems : ∀ e ∈ s.res_hists, e.hist ≠ 0 → msg_hist_bits e.hist ≠ 0
  hists : ∀ m ∈ ms, msg_is_res m = true → msg_has_hist m = true → msg_hist_bits m.hist ≠ 0

theorem Lined.solid (h : Lined src I sifive s ms) : Solid s :=
  ⟨h.booked, h.counted, fun hp => (h.behind hp).2.1, h.elems, Nat.lt_of_le_of_lt (Nat.le_add_right _ _) h.fits⟩

/-- What is pending, and what is ahead. -/
def TraceDecoder.awaits (sifive : Bool) (s : TraceDecoder σ) (ms : List Msg) : List Bool := s.pending ++ ms.flatMap (msg_tnts sifive)

theorem Counted.consumed_le_queue (hs : Counted s) (hp : s.msg_present = false) : s.consumed_tnts ≤ (queue_tnts s.res_hists).length := by
  have h := hs.consumed_le
  rw [TraceDecoder.buffered_bits, hp, if_neg Bool.false_ne_true] at h
  rw [queue_tnts_length]
  exact Nat.le_trans h (Nat.le_of_eq hs.sum)

/-- A pull moves a message from the stream to the end of what is pending. -/
theorem Lined.pull (hlaw : src.Lawful I) (hs : Lined src I sifive s ms) {env : Env} {k : Nat} {b : Bool}
    (h : Pulled src env k s (.ok b) t) (hset : s.settled) : ∃ ms', Lined src I sifive t ms' ∧ t.awaits sifive ms' = s.awaits sifive ms := by
  have hbooked : Booked t := (h.micros (c := .next_tnt) hs.synced hset rfl).keeps (fun _ _ _ => Micro.booked) hs.booked
  have hsync : t.synced = true := h.synced.trans hs.synced
  cases h with
  | other b _ hf hres =>
    obtain ⟨-, rfl⟩ | ⟨hp, n, d, m, k', hn, hn0, hc, hmsg, -⟩ := hf.buffered hf.filled
    · exact ⟨ms, hs, rfl⟩
    obtain ⟨hline, hdel⟩ := hs.ahead hp
    obtain ⟨hI, hcfg, -⟩ := hf.left hlaw hs.inv
    cases ms with
    | nil => exact absurd rfl hline.ne_nil
    | cons m' ms' =>
      obtain ⟨rfl, -⟩ := hdel.head hn
      rw [hmsg] at hres
      obtain ⟨hr, -⟩ | ⟨-, hh, rfl⟩ := hline.cons
      · exact Bool.noConfusion (hr.symm.trans hres)
      have hown : t.own_tnts = msg_tnts sifive m := by
        have hr : msg_is_res m = false := hres
        have hh' : msg_has_hist { m with hrepeat := k' } = true := hh
        rw [TraceDecoder.own_tnts, hf.filled, hmsg, hh', msg_tnts, if_pos hh, hr]
        rfl
      have hlen : (msg_tnts sifive m).length = t.buffered_bits := by rw [← hown, own_tnts_length]
      have hfits := hs.fits
      rw [TraceDecoder.buffered_bits, hp, if_neg Bool.false_ne_true, List.flatMap_singleton, hlen] at hfits
      refine ⟨[], ⟨hsync, hf.counted hs.counted, hbooked, hI, (congrArg HwCfg.quirk_sifive hcfg).trans hs.quirk, ?_,
        (fun h => Bool.noConfusion (hf.filled.symm.trans h)), fun _ => ⟨rfl, by rw [hmsg]; exact hres, by rw [hmsg]; exact hist_not_direct hh⟩, ?_,
        fun _ h => by cases h⟩, ?_⟩
      · rw [TraceDecoder.queued_bits, hf.res_hists]
        exact hfits
      · rw [hf.res_hists]
        exact hs.elems
      · have hs_own : s.own_tnts = [] := by rw [TraceDecoder.own_tnts, hp]; rfl
        rw [TraceDecoder.awaits, TraceDecoder.awaits, TraceDecoder.pending, TraceDecoder.pending, hf.res_hists, hf.consumed_tnts, hown, hs_own,
          List.append_nil, List.flatMap_singleton, List.flatMap_nil, List.append_nil,
          List.drop_append_of_le_length (hs.counted.consumed_le_queue hp)]
  | taken b u e hf hres hel =>
    cases hp : s.msg_present with
    | true =>
      cases hf with
      | present => exact Bool.noConfusion ((hset hp).symm.trans hres)
      | _ => exact Bool.noConfusion (hp.symm.trans ‹s.msg_present = false›)
    | false =>
      obtain ⟨hline, hdel⟩ := hs.ahead hp
      obtain ⟨hI, hcfg, -⟩ := hf.left hlaw hs.inv
      have hsif : u.sifive src = sifive := (congrArg HwCfg.quirk_sifive hcfg).trans hs.quirk
      obtain ⟨n, d, m, hn, hn0, hd, hmsg⟩ := hf.next_res hp hres
      cases ms with
      | nil => exact absurd rfl hline.ne_nil
      | cons m' ms' =>
        obtain ⟨rfl, hrest⟩ := hdel.head hn
        rw [hmsg] at hres
        obtain ⟨-, hline'⟩ | ⟨hr, -⟩ := hline.cons
        · have htnts : msg_tnts sifive m = e.tnts := msg_tnts_res hres (by rw [← hsif, ← hmsg]; exact hel)
          have hfits := hs.fits
          rw [TraceDecoder.buffered_bits, hp, if_neg Bool.false_ne_true, List.flatMap_cons, List.length_append, htnts, tnts_length] at hfits
          have hqueue : (u.absorbed e).res_hists = s.res_hists ++ [e] := congrArg (· ++ [e]) hf.res_hists
          refine ⟨ms', ⟨hsync, ?_, hbooked, hI, hsif, ?_, fun _ => ⟨hline', ?_⟩, (fun h => by cases h), fun x hx => ?_,
            fun m hm => hs.hists m (List.mem_cons_of_mem _ hm)⟩, ?_⟩
          · exact hs.counted.absorb hp (by omega) (res_element_repeat hel ((hf.booked hs.booked).hist_ne hf.filled)) hf.res_hists hf.res_tnts
              hf.consumed_tnts
          · have hb : (u.absorbed e).queued_bits = s.queued_bits + e.bits := by
              rw [TraceDecoder.queued_bits, hqueue, queue_bits_append, queue_bits_cons]
              rfl
            have h0 : (u.absorbed e).buffered_bits = 0 := rfl
            omega
          · change Delivers src u.msg_decoder u.msg ms'
            rw [hd, hmsg]
            exact hrest
          · rw [hqueue, List.mem_append, List.mem_singleton] at hx
            rcases hx with hx | rfl
            · exact hs.elems x hx
            · refine element_bits hel ?_
              rw [hmsg]
              exact hs.hists m List.mem_cons_self hres
          · have hs_own : s.own_tnts = [] := by rw [TraceDecoder.own_tnts, hp]; rfl
            have hcon : (u.absorbed e).consumed_tnts = s.consumed_tnts := hf.consumed_tnts
            have hpend : (u.absorbed e).pending = s.pending ++ e.tnts := by
              rw [TraceDecoder.pending, TraceDecoder.pending, hqueue, hcon, hs_own, show (u.absorbed e).own_tnts = [] from rfl, List.append_nil,
                List.append_nil, queue_tnts_concat, List.drop_append_of_le_length (hs.counted.consumed_le_queue hp)]
            rw [TraceDecoder.awaits, TraceDecoder.awaits, hpend, List.flatMap_cons, htnts, List.append_assoc]
        · exact Bool.noConfusion (hres.symm.trans hr)

/-- The loop moves messages until it finds what is asked for. -/
theorem Lined.loop (hlaw : src.Lawful I) {env : Env} {done : Trace σ (Option α)} (hasks : Asks done) {k : Nat} {x : Option α}
    (h : Loop src env done k true s (.ok x) t) (hs : Lined src I sifive s ms) :
    ∃ u ms', Lined src I sifive u ms' ∧ u.awaits sifive ms' = s.awaits sifive ms ∧ done u = some (.ok x, t) := by
  obtain ⟨u, ⟨ms', hu, he⟩, hd, -⟩ := h.keeps (P := fun u => ∃ ms', Lined src I sifive u ms' ∧ u.awaits sifive ms' = s.awaits sifive ms) hasks
    (fun _ _ _ _ ⟨_, hu, he⟩ hset hpull => let ⟨ms', ht, he'⟩ := hu.pull hlaw hpull hset; ⟨ms', ht, he'.trans he⟩) ⟨ms, hs, rfl⟩
    (fun h => nomatch h) rfl
  exact ⟨u, ms', hu, he, hd⟩

theorem Lined.take (hs : Lined src I sifive s ms) {n : Nat} (hset : s.settled) (hn : n ≤ s.icnt_left)
    (hp : s.res_icnt < n → s.msg_present = true) : Lined src I sifive (s.take_icnt n) ms ∧ (s.take_icnt n).awaits sifive ms = s.awaits sifive ms := by
  have hb := hs.booked.take hset hn hs.synced hp
  unfold TraceDecoder.take_icnt at hb ⊢
  obtain ⟨h1, h2, -, h4, h5, h6, h7, h8, h9, h10⟩ := hs
  split
  · rw [if_pos ‹_›] at hb
    exact ⟨⟨h1, ⟨h2.sum, h2.elems, h2.own, h2.front⟩, hb, h4, h5, h6, h7, h8, h9, h10⟩, rfl⟩
  · rw [if_neg ‹_›] at hb
    exact ⟨⟨h1, ⟨h2.sum, h2.elems, h2.own, h2.front⟩, hb, h4, h5, h6, h7, h8, h9, h10⟩, rfl⟩

/-- `try_retire` changes nothing about the TNTs to come. -/
theorem Lined.try_retire (hlaw : src.Lawful I) (hs : Lined src I sifive s ms) {env : Env} {icnt : Nat} {a : Nat × TraceEvent}
    (h : TriedRetire src env icnt s (.ok a) t) : ∃ ms', Lined src I sifive t ms' ∧ t.awaits sifive ms' = s.awaits sifive ms := by
  cases h with
  | early n _ _ hloop =>
    obtain ⟨u, ms', hu, he, hd⟩ := Lined.loop hlaw (asks_icnt _) hloop hs
    obtain ⟨hset, -, ⟨-, hr, -⟩ | ⟨hlt, -, hp, -, rfl⟩⟩ := retire_icnt_cases hd
    · cases hr
    · obtain ⟨ht, he'⟩ := hu.take hset (Nat.le_of_lt hlt) hp
      exact ⟨ms', ht, he'.trans he⟩
  | event v _ hloop hp hset =>
    obtain ⟨u, ms', hu, he, hd⟩ := Lined.loop hlaw (asks_icnt _) hloop hs
    obtain ⟨-, -, ⟨-, -, rfl⟩ | ⟨-, -, -, hr, -⟩⟩ := retire_icnt_cases hd
    · obtain ⟨ht, he'⟩ := hu.take hset (Nat.le_refl _) fun _ => hp
      exact ⟨ms', ht, he'.trans he⟩
    · cases hr

theorem Lined.took (hs : Lined src I sifive s ms) {b : Bool} (hset : s.settled) (hle : s.consumed_tnts ≤ s.tnt_total) (hne : s.tnts_left ≠ 0)
    (hrep : ∀ e ∈ spent s.res_hists, e.repeat_ = 1) (h : TookTnt src s b t) :
    Lined src I sifive t ms ∧ s.awaits sifive ms = b :: t.awaits sifive ms := by
  obtain ⟨-, -, hmsg, hpres, hsync, hdec, -⟩ := h.frame
  have hfits := hs.fits
  have hq := h.queued_le
  have hbuf : t.buffered_bits = s.buffered_bits := by rw [TraceDecoder.buffered_bits, TraceDecoder.buffered_bits, hmsg, hpres]
  refine ⟨⟨hsync.trans hs.synced, h.counted hs.counted, (Micro.tnt (c := .next_tnt) hs.synced hset hle hne hrep h).booked hs.booked, ?_, ?_, by omega,
    ?_, ?_, h.elems hs.elems, hs.hists⟩, ?_⟩
  · rw [hdec]
    exact hs.inv
  · rw [TraceDecoder.sifive, hdec]
    exact hs.quirk
  · rw [hpres, hdec, hmsg]
    exact hs.ahead
  · rw [hpres, hmsg]
    exact hs.behind
  · rw [TraceDecoder.awaits, h.pending hs.counted]
    rfl

/-- No TNT is left in front of a buffered message: none is to come. -/
theorem Lined.none_left (hs : Lined src I sifive s ms) (hp : s.msg_present = true) (h0 : s.tnts_left = 0) : s.awaits sifive ms = [] := by
  have hnil : s.pending = [] := by
    have hleft : s.tnt_total - s.consumed_tnts = 0 := h0
    rw [hs.solid.tnts_total, TraceDecoder.queued_bits] at hleft
    rw [TraceDecoder.pending, List.drop_eq_nil_iff, List.length_append, queue_tnts_length, own_tnts_length]
    omega
  rw [TraceDecoder.awaits, hnil, (hs.behind hp).1]
  rfl

/-- `next_tnt` returns the first of the TNTs to come, unless there are no more. -/
theorem Lined.next_tnt (hlaw : src.Lawful I) (hs : Lined src I sifive s ms) {env : Env} {b : Bool} (h : TriedTnt src env s (.ok b) t) :
    ∃ ms', Lined src I sifive t ms' ∧ (s.awaits sifive ms = [] ∨ s.awaits sifive ms = b :: t.awaits sifive ms') := by
  -- the loop stopped at a message
  have hstop : ∀ {v : TraceDecoder σ}, Loop src env (retire_tnt src) 0 true s (.ok none) v → v.msg_present = true →
      ∃ ms', Lined src I sifive v ms' ∧ s.awaits sifive ms = [] := by
    intro v hloop hp
    obtain ⟨u, ms', hu, he, hd⟩ := Lined.loop hlaw asks_tnt hloop hs
    obtain ⟨-, -, ⟨h0, -, rfl⟩ | ⟨-, c, hr, -⟩⟩ := retire_tnt_cases hd
    · exact ⟨ms', hu, he.symm.trans (hu.none_left hp h0)⟩
    · cases hr
  cases h with
  | bit _ _ _ hloop =>
    obtain ⟨u, ms', hu, he, hd⟩ := Lined.loop hlaw asks_tnt hloop hs
    obtain ⟨hset, hle, ⟨-, hr, -⟩ | ⟨hne, c, hr, hrep, htook⟩⟩ := retire_tnt_cases hd
    · cases hr
    · cases hr
      obtain ⟨ht, he'⟩ := hu.took hset hle hne hrep htook
      exact ⟨ms', ht, .inr (he ▸ he')⟩
  | waiting _ _ hloop hp =>
    obtain ⟨ms', ht, hnil⟩ := hstop hloop hp
    exact ⟨ms', ht, .inl hnil⟩
  | branch v _ hloop _ hb hret =>
    -- a message with HIST is not a direct branch
    obtain ⟨ms', hv, -⟩ := hstop hloop hret.present
    exact nomatch (hv.behind hret.present).2.2.symm.trans hb

/-- The results of `next_tnt` in a run. -/
def result_tnts (rs : List (Except NexusError Result)) : List Bool :=
  rs.filterMap fun r => match r with
    | .ok (.tnt b) => some b
    | _ => none

/-- The calls of `next_tnt` return what is to come, in order. -/
theorem Lined.run (hlaw : src.Lawful I) (calls : List (Env × Call)) : ∀ {s u : TraceDecoder σ} {ms : List Msg}
    {rs : List (Except NexusError Result)}, Lined src I sifive s ms → (∀ c ∈ calls, c.2.pulls = true) → play src calls s = some (rs, u) →
      (∀ r ∈ rs, ∃ a, r = .ok a) → (∃ ms', Lined src I sifive u ms') ∧
        (result_tnts rs).take (s.awaits sifive ms).length = (s.awaits sifive ms).take (result_tnts rs).length := by
  induction calls with
  | nil =>
    intro s u ms rs hs _ h _
    cases h
    exact ⟨⟨ms, hs⟩, by simp [result_tnts]⟩
  | cons c calls ih =>
    intro s u ms rs hs hcalls h hok
    obtain ⟨r, t, rs', hc, hrest, rfl⟩ := play_cons.1 h
    have ih := fun {ms'} (ht : Lined src I sifive t ms') =>
      ih ht (fun c hc => hcalls c (List.mem_cons_of_mem _ hc)) hrest fun r hr => hok r (List.mem_cons_of_mem _ hr)
    obtain ⟨a, rfl⟩ := hok _ List.mem_cons_self
    obtain ⟨env, c⟩ := c
    cases c with
    | try_retire icnt =>
      obtain ⟨r, hr, he⟩ := Proc.map_eq_some.1 hc
      rcases r with e | a' <;> cases he
      obtain ⟨ms', ht, he⟩ := hs.try_retire hlaw (try_retire_cases hr)
      have ih := ih ht
      rwa [he] at ih
    | next_tnt =>
      obtain ⟨r, hr, he⟩ := Proc.map_eq_some.1 hc
      rcases r with e | b <;> cases he
      obtain ⟨ms', ht, hnil | he⟩ := hs.next_tnt hlaw (next_tnt_cases hr)
      · rw [hnil]
        exact ⟨(ih ht).1, by simp⟩
      · rw [he]
        exact ⟨(ih ht).1, congrArg (b :: ·) (ih ht).2⟩
    | _ => exact nomatch hcalls _ List.mem_cons_self

/-- No assertion of `try_retire` and `next_tnt` fails. -/
theorem Lined.total (hlaw : src.Lawful I) (hs : Lined src I sifive s ms) (env : Env) {c : Call} (hc : c.pulls = true) :
    exec src env c s ≠ none := by
  have hinv : ∀ u, (∃ ms, Lined src I sifive u ms) → I u.msg_decoder ∧ Solid u ∧ u.synced = true := fun _ ⟨_, hu⟩ =>
    ⟨hu.inv, hu.solid, hu.synced⟩
  have hpull : ∀ u k b t, (∃ ms, Lined src I sifive u ms) → u.settled → Pulled src env k u (.ok b) t → ∃ ms, Lined src I sifive t ms :=
    fun _ _ _ _ ⟨_, hu⟩ hset h => let ⟨ms', ht, _⟩ := hu.pull hlaw h hset; ⟨ms', ht⟩
  have hmap : ∀ {β : Type} {f : β → Result} {x : Trace σ β}, (∃ r t, x s = some (r, t)) → (f <$> x) s ≠ none := by
    rintro β f x ⟨r, t, h⟩
    rw [Proc.map_apply, h]
    exact fun h => nomatch h
  cases c with
  | try_retire icnt => exact hmap (try_retire_total hlaw hinv hpull ⟨ms, hs⟩ icnt)
  | next_tnt =>
    refine hmap (next_tnt_total hlaw hinv hpull (fun u ⟨_, hu⟩ hp _ _ hb => ?_) ⟨ms, hs⟩)
    exact nomatch (hu.behind hp).2.2.symm.trans hb
  | _ => exact nomatch hc

end Line

/-- Synchronized, with no message buffered and no TNT queued or consumed. -/
structure Quiet {σ : Type} (s : TraceDecoder σ) : Prop where
  synced : s.synced = true
  msg_present : s.msg_present = false
  res_hists : s.res_hists = []
  res_tnts : s.res_tnts = 0
  consumed_tnts : s.consumed_tnts = 0

instance {σ : Type} (s : TraceDecoder σ) : Decidable (Quiet s) :=
  decidable_of_iff (s.synced = true ∧ s.msg_present = false ∧ s.res_hists = [] ∧ s.res_tnts = 0 ∧ s.consumed_tnts = 0)
    ⟨fun ⟨a, b, c, d, e⟩ => ⟨a, b, c, d, e⟩, fun ⟨a, b, c, d, e⟩ => ⟨a, b, c, d, e⟩⟩

theorem Quiet.lined {σ : Type} {src : Source σ} {I : σ → Prop} {s : TraceDecoder σ} {ms : List Msg} (h : Quiet s) (hb : Booked s)
    (hI : I s.msg_decoder) (hline : HistLine ms) (hdel : Delivers src s.msg_decoder s.msg ms)
    (hhist : ∀ m ∈ ms, msg_is_res m = true → msg_has_hist m = true → msg_hist_bits m.hist ≠ 0)
    (htotal : (ms.flatMap (msg_tnts (s.sifive src))).length < 2 ^ 32) : Lined src I (s.sifive src) s ms := by
  obtain ⟨h1, h2, h3, h4, h5⟩ := h
  refine ⟨h1, ⟨?_, by simp [h3], fun _ => ?_, fun hne => absurd h4 hne⟩, hb, hI, rfl, ?_, fun _ => ⟨hline, hdel⟩,
    (fun h => nomatch h2.symm.trans h), by simp [h3], hhist⟩
  · rw [h4, TraceDecoder.queued_bits, h3]
    rfl
  · rw [h5]
    exact Nat.zero_le _
  · have hq : s.queued_bits = 0 := by rw [TraceDecoder.queued_bits, h3]; rfl
    have hown : s.buffered_bits = 0 := by rw [TraceDecoder.buffered_bits, h2]; rfl
    omega

/-- From a reachable state where nothing is pending, with ResourceFull messages and a message with HIST ahead,
`next_tnt` returns their history bits in the order of the stream, whatever calls of `try_retire` come
between, and no assertion of either fails. -/
theorem next_tnt_order {s t : TraceDecoder MsgDecoder} (hs : Reachable s) (hquiet : Quiet s) {rs : List Msg} {m : Msg}
    (hdel : Delivers msg_source s.msg_decoder s.msg (rs ++ [m])) (hres : ∀ r ∈ rs, msg_is_res r = true)
    (hhist : ∀ r ∈ rs, msg_has_hist r = true → msg_hist_bits r.hist ≠ 0) (hm : msg_is_res m = false) (hmh : msg_has_hist m = true)
    (htotal : ((rs ++ [m]).flatMap (msg_tnts (s.sifive msg_source))).length < 2 ^ 32) {calls : List (Env × Call)}
    (hcalls : ∀ c ∈ calls, c.2.pulls = true) {results : List (Except NexusError Result)} (hplay : play msg_source calls s = some (results, t))
    (hok : ∀ r ∈ results, ∃ a, r = .ok a) :
    (result_tnts results).take ((rs ++ [m]).flatMap (msg_tnts (s.sifive msg_source))).length =
      ((rs ++ [m]).flatMap (msg_tnts (s.sifive msg_source))).take (result_tnts results).length ∧
      ∀ env c, c.pulls = true → exec msg_source env c t ≠ none := by
  have hall : ∀ x ∈ rs ++ [m], msg_is_res x = true → msg_has_hist x = true → msg_hist_bits x.hist ≠ 0 := by
    intro x hx hxr hxh
    rcases List.mem_append.1 hx with hx | hx
    · exact hhist x hx hxh
    · cases List.mem_singleton.1 hx
      exact nomatch hm.symm.trans hxr
  have hlined := @Quiet.lined _ msg_source _ _ _ hquiet hs.booked hs.inv ⟨rs, m, rfl, hres, hm, hmh⟩ hdel hall htotal
  have hawaits : s.awaits (s.sifive msg_source) (rs ++ [m]) = (rs ++ [m]).flatMap (msg_tnts (s.sifive msg_source)) := by
    have hown : s.own_tnts = [] := by rw [TraceDecoder.own_tnts, hquiet.msg_present]; rfl
    rw [TraceDecoder.awaits, TraceDecoder.pending, hquiet.res_hists, hown]
    simp [queue_tnts]
  obtain ⟨⟨ms', ht⟩, horder⟩ := Lined.run msg_source_lawful calls hlined hcalls hplay hok
  rw [hawaits] at horder
  exact ⟨horder, fun env c hc => ht.total msg_source_lawful env hc⟩

/-- An I-CNT, a HIST of two branches repeated twice, and an IndirectBranchHist of two more. -/
def order_start : TraceDecoder MsgDecoder :=
  fresh_decoder plain_cfg [0x24, 0x01, 0x07, 0x6c, 0xc3, 0x6c, 0x48, 0x05, 0x0b, 0x70, 0x41, 0x09, 0x1b]

def order_msgs : List Msg :=
  [⟨0, 0, .ResourceFull, 0, 3, 0, 0, 1⟩, ⟨0, 0, .ResourceFull, 2, 0, 5, 2, 1⟩, ⟨0, 0, .IndirectBranchHist, 2, 4, 6, 0, 2⟩]

/-- Three branches are asked for. -/
theorem next_tnt_order_three : ∃ results : List (Except NexusError Result), (result_tnts results).length = 3 ∧
    (result_tnts results).take (order_msgs.flatMap (msg_tnts false)).length = (order_msgs.flatMap (msg_tnts false)).take (result_tnts results).length := by
  have hrun : ((play msg_source [(env_of Msg.zero, .sync_reset)] order_start).bind fun p =>
      (play msg_source [(env_of Msg.zero, .next_tnt), (env_of Msg.zero, .try_retire 2), (env_of Msg.zero, .next_tnt), (env_of Msg.zero, .next_tnt)]
        p.2).map fun q => (p.1, (decide (Quiet p.2), p.2.sifive msg_source,
        decide (read_ahead msg_source 3 p.2.msg_decoder p.2.msg = some order_msgs)), q.1, ())) =
      some ([.ok (.reset (some ⟨2, 0⟩))], (true, false, true),
        [.ok (.tnt false), .ok (.retired 2 .None), .ok (.tnt true), .ok (.tnt false)], ()) := by decide +kernel
  obtain ⟨s, t, hs, ht, hshown, -⟩ := plays_shown (fun s => (decide (Quiet s), s.sifive msg_source,
    decide (read_ahead msg_source 3 s.msg_decoder s.msg = some order_msgs))) (fun _ => ()) hrun
  simp only [Prod.mk.injEq, decide_eq_true_eq] at hshown
  obtain ⟨hquiet, hq, hread⟩ := hshown
  have hdel : Delivers msg_source s.msg_decoder s.msg (order_msgs.take 2 ++ [⟨0, 0, .IndirectBranchHist, 2, 4, 6, 0, 2⟩]) :=
    read_ahead_delivers 3 hread
  have horder := next_tnt_order (fresh_reachable rfl hs) hquiet hdel (by decide) (by decide) (by decide) (by decide)
    (by rw [hq]; decide) (by simp [Call.pulls]) ht (by simp)
  rw [hq] at horder
  exact ⟨_, rfl, horder.1⟩

end nexusrv
