import NexusRv.Recorded
/-!
# TNT accounting

`res_tnts` is the number of history bits in the queue, `Counted`, as long as no
pull takes it past 32 bits.
-/

namespace nexusrv

section Queue
variable {σ : Type} {src : Source σ} {s t : TraceDecoder σ}

/-! ## The queue -/

/-- The history bits of the queue, as an unbounded number. -/
def queue_bits (l : List HistElement) : Nat := (l.map HistElement.bits).sum

def TraceDecoder.queued_bits (s : TraceDecoder σ) : Nat := queue_bits s.res_hists

/-- The history bits of the buffered message. -/
def TraceDecoder.buffered_bits (s : TraceDecoder σ) : Nat := if s.msg_present then s.msg.own_bits else 0

theorem queue_bits_cons (e : HistElement) (l : List HistElement) : queue_bits (e :: l) = e.bits + queue_bits l := by
  rw [queue_bits, List.map_cons, List.sum_cons]
  rfl

theorem queue_bits_append (l l' : List HistElement) : queue_bits (l ++ l') = queue_bits l + queue_bits l' := by
  rw [queue_bits, List.map_append, List.sum_append]
  rfl

theorem hist_zero_bits {e : HistElement} (h : e.hist = 0) : e.bits = 0 := by
  rw [HistElement.bits, h]
  exact Nat.mul_zero _

theorem unspent_zero {e : HistElement} (h : e.hist = 0) (l : List HistElement) : unspent (e :: l) = unspent l :=
  List.dropWhile_cons_of_pos (by simpa using h)

theorem unspent_ne {e : HistElement} (h : e.hist ≠ 0) (l : List HistElement) : unspent (e :: l) = e :: l :=
  List.dropWhile_cons_of_neg (by simpa using h)

theorem queue_bits_unspent (l : List HistElement) : queue_bits (unspent l) = queue_bits l := by
  induction l with
  | nil => rfl
  | cons e l ih =>
    by_cases he : e.hist = 0
    · rw [unspent_zero he, ih, queue_bits_cons, hist_zero_bits he, Nat.zero_add]
    · rw [unspent_ne he]

theorem unspent_unspent (l : List HistElement) : unspent (unspent l) = unspent l := by
  induction l with
  | nil => rfl
  | cons e l ih =>
    by_cases he : e.hist = 0
    · rw [unspent_zero he, ih]
    · rw [unspent_ne he, unspent_ne he]

theorem mem_of_unspent {l : List HistElement} {e : HistElement} (h : e ∈ unspent l) : e ∈ l := (List.dropWhile_sublist _).subset h

/-- Pushing an element leaves the first one with history bits. -/
theorem unspent_append {l : List HistElement} {e : HistElement} {rest : List HistElement} (h : unspent l = e :: rest) (l' : List HistElement) :
    unspent (l ++ l') = e :: (rest ++ l') := by
  induction l with
  | nil => cases h
  | cons x l ih =>
    by_cases hx : x.hist = 0
    · rw [unspent_zero hx] at h
      rw [List.cons_append, unspent_zero hx, ih h]
    · rw [unspent_ne hx] at h
      rw [List.cons_append, unspent_ne hx]
      cases h
      rfl

/-! ## The invariant -/

/-- How many bits of the front are consumed: less than it has, and of the message not more than it has. -/
structure Counted (s : TraceDecoder σ) : Prop where
  sum : s.res_tnts = s.queued_bits
  elems : ∀ e ∈ s.res_hists, e.repeat_ ≠ 0 ∧ (e.hist = 0 → e.repeat_ = 1)
  own : s.res_tnts = 0 → s.consumed_tnts ≤ s.buffered_bits
  front : s.res_tnts ≠ 0 → ∀ e rest, unspent s.res_hists = e :: rest → s.consumed_tnts = 0 ∨ s.consumed_tnts < msg_hist_bits e.hist

theorem Counted.of_cleared (h : s.Cleared) : Counted s := by
  refine ⟨by rw [TraceDecoder.queued_bits, h.res_hists, h.res_tnts]; rfl, by simp [h.res_hists], ?_, fun hne => absurd h.res_tnts hne⟩
  rw [h.consumed_tnts]
  exact fun _ => Nat.zero_le _

/-- Not more bits are consumed than there are. -/
theorem Counted.consumed_le (h : Counted s) : s.consumed_tnts ≤ s.res_tnts + s.buffered_bits := by
  by_cases h0 : s.res_tnts = 0
  · have := h.own h0
    omega
  · have hsum := h.sum
    have hq := queue_bits_unspent s.res_hists
    rw [TraceDecoder.queued_bits, ← hq] at hsum
    rcases hu : unspent s.res_hists with _ | ⟨e, rest⟩
    · rw [hu] at hsum
      exact absurd hsum h0
    · rw [hu, queue_bits_cons] at hsum
      have hbits : msg_hist_bits e.hist ≤ e.bits :=
        Nat.le_mul_of_pos_left _ (Nat.pos_of_ne_zero (h.elems e (mem_of_unspent (hu ▸ List.mem_cons_self))).1)
      rcases h.front h0 e rest hu with hc | hc <;> omega

/-- The element of a ResourceFull message that passes the check. -/
theorem res_element_repeat {sifive : Bool} {m : Msg} {e : HistElement} (h : res_element sifive m = some e)
    (hh : msg_has_hist m = true → m.hist ≠ 0) : e.repeat_ ≠ 0 ∧ (e.hist = 0 → e.repeat_ = 1) := by
  have hne : ∀ n : UInt32, n ≠ 0 → n.toNat ≠ 0 := fun n hn h0 => hn (UInt32.toNat_inj.1 (by simpa using h0))
  unfold res_element at h
  split at h
  · cases h
    exact ⟨Nat.one_ne_zero, fun _ => rfl⟩
  split at h
  · rename_i hi
    cases h
    refine ⟨?_, fun h0 => absurd h0 (hh hi)⟩
    dsimp only
    split
    · exact hne _ ‹_›
    · decide
  split at h
  · rename_i hd
    cases h
    rw [Bool.and_eq_true, decide_eq_true_eq] at hd
    exact ⟨hne _ hd.2, fun h0 => absurd (show (2 : UInt32) = 0 from h0) (by decide)⟩
  split at h
  · rename_i hd
    cases h
    rw [Bool.and_eq_true, decide_eq_true_eq] at hd
    exact ⟨hne _ hd.2, fun h0 => absurd (show (3 : UInt32) = 0 from h0) (by decide)⟩
  · cases h

/-- No bit of a message is consumed that is not buffered. -/
theorem Counted.consumed_zero (h : Counted s) (hp : s.msg_present = false) (h0 : s.res_tnts = 0) : s.consumed_tnts = 0 := by
  have := h.own h0
  rw [TraceDecoder.buffered_bits, hp] at this
  exact Nat.le_zero.1 this

theorem Fetched.counted {msg2 : Msg} {r : Except NexusError Bool} (h : Fetched src msg2 s r t) (hs : Counted s) : Counted t := by
  cases hp : s.msg_present with
  | true =>
    cases h with
    | present => exact hs
    | _ => exact nomatch hp.symm.trans ‹s.msg_present = false›
  | false =>
    have hown : s.res_tnts = 0 → s.consumed_tnts ≤ t.buffered_bits := fun h0 => by
      rw [hs.consumed_zero hp h0]
      exact Nat.zero_le _
    rw [h.frame] at hown ⊢
    exact ⟨hs.sum, hs.elems, hown, hs.front⟩

/-- A pull that fits into 32 bits. -/
theorem Counted.absorb {e : HistElement} (hs : Counted s) (hp : s.msg_present = false) (hfit : s.queued_bits + e.bits < 2 ^ 32)
    (he : e.repeat_ ≠ 0 ∧ (e.hist = 0 → e.repeat_ = 1)) (ht : t.res_hists = s.res_hists) (htt : t.res_tnts = s.res_tnts)
    (htc : t.consumed_tnts = s.consumed_tnts) : Counted (t.absorbed e) := by
  have hbits : (t.absorbed e).res_tnts = s.res_tnts + e.bits := by
    change (t.res_tnts + e.bits % 2 ^ 32) % 2 ^ 32 = _
    rw [htt, Nat.add_mod_mod, hs.sum, Nat.mod_eq_of_lt hfit]
  have hq : (t.absorbed e).res_hists = s.res_hists ++ [e] := by rw [← ht]; rfl
  have hc : (t.absorbed e).consumed_tnts = s.consumed_tnts := htc
  refine ⟨?_, fun x hx => ?_, fun h0 => ?_, fun hne x rest hx => ?_⟩
  · rw [hbits, TraceDecoder.queued_bits, hq, queue_bits_append, queue_bits_cons, hs.sum]
    rfl
  · rw [hq, List.mem_append, List.mem_singleton] at hx
    rcases hx with hx | rfl
    · exact hs.elems x hx
    · exact he
  · rw [hc, hs.consumed_zero hp (by omega)]
    exact Nat.zero_le _
  · rw [hc]
    by_cases h0 : s.res_tnts = 0
    · exact .inl (hs.consumed_zero hp h0)
    · rcases hu : unspent s.res_hists with _ | ⟨y, rest'⟩
      · have hsum := hs.sum
        rw [TraceDecoder.queued_bits, ← queue_bits_unspent, hu] at hsum
        exact absurd hsum h0
      · rw [hq, unspent_append hu] at hx
        cases hx
        exact hs.front h0 _ rest' hu

/-- A bit is consumed. -/
theorem TookTnt.counted {b : Bool} (h : TookTnt src s b t) (hs : Counted s) : Counted t := by
  have hsum : s.res_tnts = queue_bits (unspent s.res_hists) := by rw [queue_bits_unspent]; exact hs.sum
  have helems : ∀ e ∈ unspent s.res_hists, e.repeat_ ≠ 0 ∧ (e.hist = 0 → e.repeat_ = 1) := fun e he => hs.elems e (mem_of_unspent he)
  cases h with
  | own h0 hp hh hlt =>
    refine ⟨hsum, helems, fun _ => ?_, fun hne => absurd h0 hne⟩
    change s.consumed_tnts + 1 ≤ s.buffered_bits
    rw [TraceDecoder.buffered_bits, hp, if_pos rfl, Msg.own_bits, hh]
    exact hlt
  | bit e rest h0 hu hlt =>
    refine ⟨hsum, helems, fun h => absurd h h0, fun _ x rest' hx => .inr ?_⟩
    have hx : unspent (unspent s.res_hists) = x :: rest' := hx
    rw [unspent_unspent, hu] at hx
    cases hx
    exact hlt
  | last e rest h0 hu hlast hle hrep =>
    have he := helems e (hu ▸ List.mem_cons_self)
    rw [hu, queue_bits_cons] at hsum
    -- one repetition of the front is consumed
    have hmul : e.bits = (e.repeat_ - 1) * msg_hist_bits e.hist + msg_hist_bits e.hist := by
      rw [HistElement.bits, ← Nat.succ_mul, Nat.succ_eq_add_one, Nat.sub_add_cancel (Nat.pos_of_ne_zero hrep)]
    have hrest : ∀ x ∈ rest, x.repeat_ ≠ 0 ∧ (x.hist = 0 → x.repeat_ = 1) := fun x hx => helems x (hu ▸ List.mem_cons_of_mem _ hx)
    refine ⟨?_, fun x hx => ?_, fun _ => Nat.zero_le _, fun _ _ _ _ => .inl rfl⟩
    · change s.res_tnts - msg_hist_bits e.hist = queue_bits (if e.repeat_ - 1 = 0 then rest else _)
      split
      · rename_i h1
        rw [h1, Nat.zero_mul] at hmul
        omega
      · rw [queue_bits_cons]
        change _ = (e.repeat_ - 1) * msg_hist_bits e.hist + queue_bits rest
        omega
    · have hx : x ∈ if e.repeat_ - 1 = 0 then rest else ⟨e.hist, e.repeat_ - 1, time_left (s.sifive src) e.timestamp⟩ :: rest := hx
      split at hx
      · exact hrest x hx
      · rename_i h1
        rcases List.mem_cons.1 hx with rfl | hx
        · exact ⟨h1, fun hz => absurd (he.2 hz) (by omega)⟩
        · exact hrest x hx

/-- Where a message can be retired, the queue is empty, and no bit of what follows is consumed. -/
theorem Retirable.counted (hret : Retirable s) (hs : Counted s) : Counted (s.retired src) := by
  obtain ⟨-, h2, h3, -, h5, -⟩ := @retired_frame _ src s
  have h0 : s.res_tnts = 0 := by rw [hs.sum, TraceDecoder.queued_bits, hret.res_hists]; rfl
  refine ⟨?_, ?_, fun _ => ?_, fun hne => absurd (h2.trans h0) hne⟩
  · rw [h2, h0, TraceDecoder.queued_bits, h3, hret.res_hists]
    rfl
  · rw [h3]
    exact hs.elems
  · rw [h5]
    exact Nat.zero_le _

/-- Every step but a pull keeps the count, and a pull that fits. -/
theorem Micro.counted {c : Call} {o : List Out} (h : Micro src c s o t) (hb : Booked s) (hs : Counted s)
    (hfit : c.pulls = true → t.queued_bits < 2 ^ 32) : Counted t := by
  cases h with
  | fetch hf => exact hf.counted hs
  | @pull u msg2 e hpulls hsync hp hf hres hel hlen hgrown =>
    have hq : (u.absorbed e).res_hists = s.res_hists ++ [e] := congrArg (· ++ [e]) hf.res_hists
    have hfit := hfit hpulls
    rw [TraceDecoder.queued_bits, hq, queue_bits_append, queue_bits_cons] at hfit
    exact hs.absorb hp hfit (res_element_repeat hel ((hf.booked hb).hist_ne hf.filled)) hf.res_hists hf.res_tnts hf.consumed_tnts
  | stuck => exact ⟨hs.sum, hs.elems, hs.own, hs.front⟩
  | take =>
    unfold TraceDecoder.take_icnt
    split <;> exact ⟨hs.sum, hs.elems, hs.own, hs.front⟩
  | tnt _ _ _ _ _ htook => exact htook.counted hs
  | retire _ _ _ hret => exact hret.counted hs
  | indirect _ _ _ hret =>
    obtain ⟨h1, h2⟩ := addressed_frame s
    have ha : Counted s.addressed := by
      rw [h1, h2]
      exact ⟨hs.sum, hs.elems, hs.own, hs.front⟩
    exact (addressed_retirable.2 hret).counted ha
  | stop _ _ hex _ hret => exact .of_cleared (cleared_desync s hret.res_icnt (hret.res_tnts hb.tnts_lt hex.tnts_le hex.tnts) hret.res_hists)
  | error => exact .of_cleared (cleared_desync (s.emptied src) rfl rfl rfl)
  | past => exact ⟨hs.sum, hs.elems, hs.own, hs.front⟩
  | peek => exact ⟨hs.sum, hs.elems, hs.own, hs.front⟩
  | skip => exact ⟨hs.sum, hs.elems, hs.own, hs.front⟩
  | stack => exact ⟨hs.sum, hs.elems, hs.own, hs.front⟩
  | time => exact ⟨hs.sum, hs.elems, hs.own, hs.front⟩
  | drop _ hsync =>
    obtain ⟨h1, h2, h3, h4, h5⟩ := hb.cleared hsync
    exact .of_cleared ⟨h1, h2, h3, h4, h5⟩
  | resync => exact .of_cleared ⟨rfl, rfl, rfl, rfl, rfl⟩

end Queue

section Bits
variable {σ : Type} {src : Source σ} {s t : TraceDecoder (σ × List Input)}

/-! ## The bits that a run takes -/

/-- The history bits of a ResourceFull message. -/
def res_bits (sifive : Bool) (m : Msg) : Nat := if msg_is_res m then ((res_element sifive m).map HistElement.bits).getD 0 else 0

/-- The history bits of the ResourceFull messages that were taken. -/
def bits_taken (sifive : Bool) : List Input → Nat
  | [] => 0
  | .took m :: l => res_bits sifive m + bits_taken sifive l
  | _ :: l => bits_taken sifive l

theorem bits_taken_append (sifive : Bool) (g l : List Input) : bits_taken sifive (g ++ l) = bits_taken sifive g + bits_taken sifive l := by
  induction g with
  | nil => exact (Nat.zero_add _).symm
  | cons i g ih => cases i <;> simp only [List.cons_append, bits_taken, ih, Nat.add_assoc]

theorem bits_taken_cons_le (sifive : Bool) (i : Input) (l : List Input) : bits_taken sifive l ≤ bits_taken sifive (i :: l) := by
  cases i with
  | took m => exact Nat.le_add_left _ _
  | _ => exact Nat.le_refl _

theorem bits_taken_put_back (sifive : Bool) (i : Input) (l : List Input) : bits_taken sifive l ≤ bits_taken sifive (put_back (i :: l)) := by
  cases i with
  | _ => exact Nat.le_refl _

theorem FetchLog.bits_le (h : FetchLog s t) (sifive : Bool) : bits_taken sifive s.log ≤ bits_taken sifive t.log := by
  cases h with
  | present => exact Nat.le_refl _
  | nothing i _ _ _ hl => rw [hl]; exact bits_taken_cons_le sifive i _
  | plain m _ _ _ _ _ hl => rw [hl]; exact Nat.le_add_left _ _
  | branch m g k _ _ _ _ _ _ hl => rw [hl, bits_taken_append, bits_taken]; omega

theorem TookTnt.queued_le {b : Bool} {s t : TraceDecoder σ} (h : TookTnt src s b t) : t.queued_bits ≤ s.queued_bits := by
  have hq : s.queued_bits = queue_bits (unspent s.res_hists) := (queue_bits_unspent _).symm
  rw [hq]
  cases h with
  | own => exact Nat.le_refl _
  | bit => exact Nat.le_refl _
  | last e rest _ hu =>
    change queue_bits (if e.repeat_ - 1 = 0 then rest else _) ≤ _
    rw [hu, queue_bits_cons]
    split
    · exact Nat.le_add_left _ _
    · rw [queue_bits_cons]
      exact Nat.add_le_add_right (Nat.mul_le_mul_right _ (Nat.sub_le _ _)) _

/-- A ResourceFull message is fetched without looking ahead. -/
theorem FetchLog.res (h : FetchLog s t) (hp : s.msg_present = false) (htp : t.msg_present = true) (hres : msg_is_res t.msg = true) :
    t.log = .took t.msg :: s.log := by
  cases h with
  | present h => exact nomatch hp.symm.trans h
  | nothing i _ h => exact nomatch htp.symm.trans h
  | plain m _ _ _ _ hm hl => rw [hl, hm]
  | branch m g k _ _ _ hb _ hm =>
    rw [hm] at hres
    simp only [msg_is_res, decide_eq_true_eq] at hres
    simp [repeatable, msg_is_branch, hres] at hb

/-- The queue grows by the bits that are taken, at most. -/
theorem Micro.bits_le {I : σ → Prop} (hlaw : src.Lawful I) {c : Call} {o : List Out} (h : Micro (recorded src) c s o t) (hI : I s.msg_decoder.1) :
    t.queued_bits + bits_taken (s.sifive (recorded src)) s.log ≤ s.queued_bits + bits_taken (s.sifive (recorded src)) t.log ∧
      bits_taken (s.sifive (recorded src)) s.log ≤ bits_taken (s.sifive (recorded src)) t.log := by
  generalize hq : s.sifive (recorded src) = sifive
  -- a step that leaves or shortens the queue
  have hkeep : ∀ {u : TraceDecoder (σ × List Input)}, u.queued_bits ≤ s.queued_bits → bits_taken sifive s.log ≤ bits_taken sifive u.log →
      u.queued_bits + bits_taken sifive s.log ≤ s.queued_bits + bits_taken sifive u.log ∧ bits_taken sifive s.log ≤ bits_taken sifive u.log :=
    fun h1 h2 => ⟨Nat.add_le_add h1 h2, h2⟩
  have hlog : ∀ {u : TraceDecoder (σ × List Input)}, u.msg_decoder = s.msg_decoder → bits_taken sifive s.log ≤ bits_taken sifive u.log :=
    fun h => by rw [TraceDecoder.log, TraceDecoder.log, h]
  have hretired : ∀ {u : TraceDecoder (σ × List Input)}, (u.retired (recorded src)).queued_bits = u.queued_bits := fun {u} =>
    congrArg queue_bits (retired_frame u).2.2.1
  cases h with
  | fetch hf => exact hkeep (Nat.le_of_eq (congrArg queue_bits hf.res_hists)) (hf.reads.bits_le sifive)
  | @pull u msg2 e _ _ hp hf hres hel =>
    have hlog : (u.absorbed e).log = .took u.msg :: s.log := hf.reads.res hp hf.filled hres
    have hsame : u.sifive (recorded src) = sifive :=
      (congrArg HwCfg.quirk_sifive (hf.left (recorded_lawful hlaw) hI).2.1).trans hq
    have hbits : res_bits sifive u.msg = e.bits := by rw [res_bits, if_pos hres, ← hsame, hel]; rfl
    have hqueue : (u.absorbed e).queued_bits = s.queued_bits + e.bits := by
      rw [TraceDecoder.queued_bits, show (u.absorbed e).res_hists = s.res_hists ++ [e] from congrArg (· ++ [e]) hf.res_hists,
        queue_bits_append, queue_bits_cons]
      rfl
    rw [hlog, hqueue, bits_taken, hbits]
    omega
  | stuck => exact hkeep (Nat.le_refl _) (hlog rfl)
  | take =>
    unfold TraceDecoder.take_icnt
    split <;> exact hkeep (Nat.le_refl _) (hlog rfl)
  | tnt _ _ _ _ _ htook => exact hkeep htook.queued_le (hlog htook.frame.2.2.2.2.2.1)
  | retire => exact hkeep (Nat.le_of_eq hretired) (hlog (retired_msg_decoder s))
  | indirect =>
    have hsame : s.addressed.queued_bits = s.queued_bits := by
      rw [(addressed_frame s).1]
      rfl
    exact hkeep (Nat.le_of_eq (hretired.trans hsame))
      (hlog ((retired_msg_decoder _).trans (addressed_msg_decoder s)))
  | stop => exact hkeep (Nat.le_of_eq hretired) (hlog (retired_msg_decoder s))
  | error =>
    refine hkeep ?_ (hlog (retired_msg_decoder (s.emptied (recorded src))))
    rw [TraceDecoder.queued_bits, show _ = _ from (@retired_frame _ (recorded src) (s.emptied (recorded src))).2.2.1]
    exact Nat.zero_le _
  | @past m₂ r d m _ hn =>
    refine hkeep (Nat.le_refl _) ?_
    change _ ≤ bits_taken sifive d.2
    rw [(recorded_next.1 hn).2]
    exact bits_taken_cons_le sifive _ _
  | @peek m₂ n d m d' _ hn hback =>
    refine hkeep (Nat.le_refl _) ?_
    change _ ≤ bits_taken sifive d'.2
    rw [(recorded_rewind.1 hback).2, (recorded_next.1 hn).2]
    exact bits_taken_put_back sifive _ _
  | @skip m₂ r d m _ hn =>
    refine hkeep (Nat.le_refl _) ?_
    change _ ≤ bits_taken sifive d.2
    rw [(recorded_next.1 hn).2]
    exact bits_taken_cons_le sifive _ _
  | drop => exact hkeep (Nat.le_refl _) (hlog rfl)
  | resync => exact hkeep (Nat.zero_le _) (hlog rfl)
  | stack => exact hkeep (Nat.le_refl _) (hlog rfl)
  | time => exact hkeep (Nat.le_refl _) (hlog rfl)

theorem Micros.bits_mono {I : σ → Prop} (hlaw : src.Lawful I) {c : Call} {o : List Out} {sifive : Bool} (h : Micros (recorded src) c s o t) :
    I s.msg_decoder.1 → s.sifive (recorded src) = sifive → bits_taken sifive s.log ≤ bits_taken sifive t.log := by
  induction h with
  | refl => exact fun _ _ => Nat.le_refl _
  | head h _ ih =>
    intro hI hcfg
    obtain ⟨hIt, hsame⟩ := h.lawful (recorded_lawful hlaw) hI
    refine Nat.le_trans ?_ (ih hIt ((congrArg HwCfg.quirk_sifive hsame).trans hcfg))
    rw [← hcfg]
    exact (h.bits_le hlaw hI).2

/-- Steps whose pulls fit into 32 bits keep the count. -/
theorem Micros.counted {I : σ → Prop} (hlaw : src.Lawful I) {c : Call} {o : List Out} {sifive : Bool} (h : Micros (recorded src) c s o t) :
    I s.msg_decoder.1 → s.sifive (recorded src) = sifive → Booked s → Counted s →
      (c.pulls = true → s.queued_bits + bits_taken sifive t.log < 2 ^ 32 + bits_taken sifive s.log) →
      Counted t := by
  induction h with
  | refl => exact fun _ _ _ hs _ => hs
  | @head s o t os u h hrun ih =>
    intro hI hcfg hb hs hfit
    obtain ⟨h1, h2⟩ := h.bits_le hlaw hI
    rw [hcfg] at h1 h2
    obtain ⟨hIt, hsame⟩ := h.lawful (recorded_lawful hlaw) hI
    have hcfg' : t.sifive (recorded src) = sifive := (congrArg HwCfg.quirk_sifive hsame).trans hcfg
    have hmono : bits_taken sifive t.log ≤ bits_taken sifive u.log := hrun.bits_mono hlaw hIt hcfg'
    have ht : Counted t := h.counted hb hs fun hp => by
      have := hfit hp
      omega
    refine ih hIt hcfg' (h.booked hb) ht fun hp => ?_
    have := hfit hp
    omega

end Bits

/-! ## Runs -/

/-- The queue before the call, and the ResourceFull messages that the call takes, hold less than 2^32
history bits. -/
def bits_fit (c : Call) (s t : TraceDecoder (MsgDecoder × List Input)) : Bool :=
  !c.pulls || decide (s.queued_bits + bits_taken (s.sifive (recorded msg_source)) t.log <
    2 ^ 32 + bits_taken (s.sifive (recorded msg_source)) s.log)

/-- What a call keeps that takes no more bits than fit. -/
structure TntInv (s : TraceDecoder (MsgDecoder × List Input)) : Prop where
  counted : Counted s
  booked : Booked s
  inv : DecoderInv s.msg_decoder.1

theorem exec_counted {env : Env} {c : Call} {s t : TraceDecoder (MsgDecoder × List Input)} {r : Except NexusError Result}
    (h : exec (recorded msg_source) env c s = some (r, t)) (hfit : bits_fit c s t = true) (hs : TntInv s) : TntInv t := by
  obtain ⟨os, hm, -⟩ := exec_micros h
  refine ⟨hm.counted msg_source_lawful hs.inv rfl hs.booked hs.counted fun hp => ?_, hm.keeps (fun _ _ _ => Micro.booked) hs.booked,
    hm.keeps (P := fun s => DecoderInv s.msg_decoder.1) (fun _ _ _ h hI => (h.lawful (recorded_lawful msg_source_lawful) hI).1) hs.inv⟩
  rw [bits_fit, hp] at hfit
  simpa using hfit

theorem Initial.tnt_inv {s : TraceDecoder MsgDecoder} (h : Initial s) : TntInv s.start where
  counted := .of_cleared (let ⟨a, b, c, d, e⟩ := h.cleared; ⟨a, b, c, d, e⟩)
  booked := .of_cleared (let ⟨a, b, c, d, e⟩ := h.cleared; ⟨a, b, c, d, e⟩) fun hp => by
    obtain ⟨hwcfg, fd, filter, buffer, env, hinit⟩ := h
    obtain ⟨stack, rfl⟩ := trace_decoder_init_eq hinit
    cases hp
  inv := h.reachable.inv

/-- As long as every call takes only what fits into the counter, `res_tnts` is the number of history bits
in the queue, and no more bits are consumed than there are. -/
theorem res_tnts_counts {s₀ s : TraceDecoder MsgDecoder} (hinit : Initial s₀) {calls : List (Env × Call)}
    {rs : List (Except NexusError Result)} (hplay : play msg_source calls s₀ = some (rs, s))
    (hfit : along (recorded msg_source) bits_fit calls s₀.start = true) :
    s.res_tnts = s.queued_bits ∧ s.consumed_tnts ≤ s.res_tnts + s.buffered_bits := by
  obtain ⟨u, hu, rfl⟩ := play_recorded hplay
  have hinv : TntInv u := play_along (fun _ _ _ _ _ => exec_counted) calls hu hfit hinit.tnt_inv
  exact ⟨hinv.counted.sum, hinv.counted.consumed_le⟩

/-- A ProgTraceSync, a HIST of two branches and a DirectBranch; one of the two is consumed. -/
theorem res_tnts_counts_two : ∃ s : TraceDecoder MsgDecoder, s.res_tnts = s.queued_bits ∧ s.consumed_tnts ≤ s.res_tnts + s.buffered_bits ∧ s.consumed_tnts = 1 := by
  have hrun : (play msg_source [(env_of Msg.zero, .sync_reset), (env_of Msg.zero, .try_retire 1), (env_of Msg.zero, .next_tnt)]
      (fresh_decoder plain_cfg [0x24, 0x01, 0x07, 0x6c, 0x44, 0x07, 0x0c, 0x17])).map (fun r => (r.1, r.2.consumed_tnts)) =
      some ([.ok (.reset (some ⟨2, 0⟩)), .ok (.retired 1 .None), .ok (.tnt false)], 1) := by decide +kernel
  obtain ⟨s, hs, hone⟩ := play_shown (·.consumed_tnts) hrun
  obtain ⟨h1, h2⟩ := res_tnts_counts (fresh_initial rfl _) hs (by decide +kernel)
  exact ⟨s, h1, h2, hone⟩

def sifive_cfg : HwCfg := ⟨0, 0, 8, 0, 0, false, false, true⟩

/-- Twice 2^32 - 1 branches that were not taken: the counter wraps. -/
theorem res_tnts_wraps : ¬ ∀ (s₀ s : TraceDecoder MsgDecoder) (calls : List (Env × Call)) (rs : List (Except NexusError Result)), Initial s₀ →
    play msg_source calls s₀ = some (rs, s) → (∀ r ∈ rs, ∃ a, r = .ok a) →
    s.res_tnts = s.queued_bits ∧ s.consumed_tnts ≤ s.res_tnts + s.buffered_bits := by
  intro hall
  have hrun : (play msg_source [(env_of Msg.zero, .sync_reset), (env_of Msg.zero, .try_retire 1)]
      (fresh_decoder sifive_cfg [0x24, 0x01, 0x07, 0x6c, 0xe0, 0xfc, 0xfc, 0xfc, 0xfc, 0xff, 0x6c, 0xe0, 0xfc, 0xfc, 0xfc, 0xfc, 0xff,
        0x0c, 0x17])).map (fun r => (r.1, (r.2.res_tnts, r.2.queued_bits))) =
      some ([.ok (.reset (some ⟨2, 0⟩)), .ok (.retired 1 .None)], (2 ^ 32 - 2, 2 ^ 33 - 2)) := by decide +kernel
  obtain ⟨s, hs, hcount⟩ := play_shown (fun s => (s.res_tnts, s.queued_bits)) hrun
  obtain ⟨h1, -⟩ := hall _ s _ _ (fresh_initial rfl _) hs (by simp)
  rw [Prod.mk.injEq] at hcount
  omega

end nexusrv
