import NexusRv.Erasure
/-!
# Filtering a trace and splitting it

One source of a trace is decoded with the SRC filter, or without a filter from the file that `split` writes for it. The filter drops messages
where the file has none. What is called in the trace decoder does not tell the two apart, up to the end of the file: there, the filter has
left the last message of another source in the message of the caller.
-/

namespace nexusrv

/-! ## A filter and a file of one source -/

/-- The last message of the trace, where it is of another source than `f`. -/
def Trails (f : Int16) (last : Msg) (ms : List (Nat × Msg)) : Prop := ∀ q, ms.getLast? = some q → q.2.src.toNat ≠ f.toInt → q.2 = last

/-- The messages of the source `f`. -/
def of_source (f : Int16) (ms : List (Nat × Msg)) : List (Nat × Msg) := ms.filter fun q => q.2.src.toNat = f.toInt

/-- A decoder with the filter `f` in the file `S`, and one without a filter in the file `S'`, before the same messages of the source `f`. -/
inductive Sifted (hwcfg : HwCfg) (S S' : List UInt8) (f : Int16) (last : Msg) : MsgDecoder → MsgDecoder → Prop where
  | mk {d e : MsgDecoder} {p q : Nat} {ms : List (Nat × Msg)} : 0 ≤ f → Streams hwcfg S d p → Streams hwcfg S' e q → d.sifts (-1) = d →
      Decodes hwcfg (S.drop p) ms [] → Decodes hwcfg (S'.drop q) (of_source f ms) [] → (∀ q ∈ ms, q.2.tcode ≠ .Idle) → Trails f last ms →
      Sifted hwcfg S S' f last (d.sifts f) e

/-- What two calls leave that both return `n`, in front of the messages `ms`. -/
structure Agrees (hwcfg : HwCfg) (S S' : List UInt8) (f : Int16) (last : Msg) (ms : List (Nat × Msg)) (a b : Msg) (n : Nat)
    (x y : MsgDecoder × Msg) : Prop where
  behind : Sifted hwcfg S S' f last x.1 y.1
  back : ∃ d e, msg_source.rewind_last x.1 = some d ∧ msg_source.rewind_last y.1 = some e ∧ Sifted hwcfg S S' f last d e
  same : n ≠ 0 → x.2.Same y.2 ∧ x.2.tcode ≠ .Idle
  at_end : n = 0 → y.2 = b ∧ (ms = [] ∧ x.2 = a ∨ x.2.Same last)

section Sift
variable {hwcfg : HwCfg} {S S' : List UInt8} {f : Int16} {last : Msg} {d e d' : MsgDecoder} {p q n : Nat} {m a b : Msg} {ms : List (Nat × Msg)}

theorem of_source_cons_pos (h : m.src.toNat = f.toInt) : of_source f ((n, m) :: ms) = (n, m) :: of_source f ms :=
  List.filter_cons_of_pos (decide_eq_true h)

theorem of_source_cons_neg (h : m.src.toNat ≠ f.toInt) : of_source f ((n, m) :: ms) = of_source f ms :=
  List.filter_cons_of_neg (by simpa using h)

theorem Trails.tail {r : Nat × Msg} (h : Trails f last (r :: ms)) : Trails f last ms := by
  intro q hq hne
  rcases ms with _ | ⟨q', ms⟩
  · cases hq
  · exact h q (by rw [List.getLast?_cons_cons]; exact hq) hne

/-- The filter is not looked at when a message is put back. -/
theorem rewind_sifts (f : Int16) (d : MsgDecoder) : msg_source.rewind_last (d.sifts f) = (msg_source.rewind_last d).map (·.sifts f) := by
  change (msg_decoder_rewind_last (d.sifts f)).map Prod.snd = ((msg_decoder_rewind_last d).map Prod.snd).map (·.sifts f)
  simp only [msg_decoder_rewind_last, Proc.get_bind_apply, Proc.assert_bind_apply, MsgDecoder.sifts]
  split
  · split
    · cases hl : decide (d.lastmsg_len ≠ 0)
      · rfl
      · simp only [Proc.when_true, Proc.assert_bind_apply]
        split
        · cases hp : decide (d.pos = 0)
          · simp
          · simp only [Proc.when_true, Proc.bind_assoc_apply, Proc.assert_bind_apply]
            split
            · split <;> rfl
            · rfl
        · rfl
    · rfl
  · rfl

/-- A call that delivers a message keeps what is left in the buffer, and so does putting the message back. -/
theorem Streams.moves (h : Streams hwcfg S d p) (hnext : msg_decoder_next (d, a) = some (.ok n, d', b)) :
    Streams hwcfg S d' (p + n) ∧ ∃ d₀, msg_source.rewind_last d' = some d₀ ∧ Streams hwcfg S d₀ p := by
  obtain ⟨hplaced, hsize, hframe, hback⟩ := h.1.moves hnext
  obtain ⟨d₀, hd₀, hplaced₀, hsize₀⟩ := hback n rfl
  have hfits : Fits d'.bufsz (S.drop (p + n)) := by
    rw [hsize]
    rcases hframe n rfl with hframe | rfl
    · rw [← List.drop_drop]
      exact h.2.fits.drop hframe
    · exact h.2.fits
  exact ⟨⟨hplaced, hplaced.buffered hfits⟩, d₀, hd₀, hplaced₀, hplaced₀.buffered (hsize₀ ▸ h.2.fits)⟩

/-- No call sets a filter. -/
theorem unfiltered_next (hself : d.sifts (-1) = d) (hinv : DecoderInv d) (h : msg_decoder_next (d, a) = some (.ok n, d', b)) :
    d'.sifts (-1) = d' ∧ ∀ d₀, msg_source.rewind_last d' = some d₀ → d₀.sifts (-1) = d₀ := by
  rw [← hself] at h
  refine ⟨sifts_self (next_left (sifts_inv hinv (-1)) h).2.1, ?_⟩
  intro d₀ hd₀
  obtain ⟨d₁, hd₁, -, hs, -⟩ := next_rewinds (sifts_inv hinv (-1)) h
  cases hd₀.symm.trans hd₁
  exact sifts_self hs

/-- The filter drops messages until one comes that the file has too, or the trace ends. -/
theorem sifted_agrees (hf : 0 ≤ f) (ms : List (Nat × Msg)) : ∀ {d e : MsgDecoder} {p q : Nat} {a b : Msg}, Streams hwcfg S d p → Streams hwcfg S' e q →
    d.sifts (-1) = d → Decodes hwcfg (S.drop p) ms [] → Decodes hwcfg (S'.drop q) (of_source f ms) [] → (∀ q ∈ ms, q.2.tcode ≠ .Idle) →
    Trails f last ms → ∃ n x y, msg_decoder_next (d.sifts f, a) = some (.ok n, x) ∧ msg_decoder_next (e, b) = some (.ok n, y) ∧
      Agrees hwcfg S S' f last ms a b n x y := by
  induction ms with
  | nil =>
    intro d e p q a b hd he hself hdec hdec' hidle htrail
    obtain ⟨d', a', ha⟩ := hd.eof hdec.of_nil a
    obtain ⟨e', b', hb⟩ := he.eof hdec'.of_nil b
    obtain ⟨hd', d₀, hd₀, hback⟩ := hd.moves ha
    obtain ⟨he', e₀, he₀, hback'⟩ := he.moves hb
    obtain ⟨hself', hself₀⟩ := unfiltered_next hself hd.1.inv ha
    have hkeep : msg_decoder_next (d.sifts f, a) = some (.ok 0, d'.sifts f, a') :=
      sifts_keeps hf hd.1.inv (hself.symm ▸ ha) fun n hn => by cases hn
    have hsifted : Sifted hwcfg S S' f last (d'.sifts f) e' := .mk hf hd' he' hself' hdec hdec' hidle htrail
    refine ⟨0, _, _, hkeep, hb, hsifted, ⟨d₀.sifts f, e₀, ?_, he₀, ?_⟩, fun h0 => absurd rfl h0, fun _ => ⟨?_, .inl ⟨rfl, ?_⟩⟩⟩
    · rw [rewind_sifts, hd₀]
      rfl
    · exact .mk hf hback hback' (hself₀ d₀ hd₀) hdec hdec' hidle htrail
    · exact next_eof he.1.inv he.1.unfiltered hb
    · exact next_eof hd.1.inv hd.1.unfiltered ha
  | cons r ms ih =>
    obtain ⟨n, m⟩ := r
    intro d e p q a b hd he hself hdec hdec' hidle htrail
    obtain ⟨hread, hrest⟩ := hdec.of_cons
    rw [List.drop_drop] at hrest
    have hpos := hread.pos
    obtain ⟨d', a', -, ha, hsame, -⟩ := hd.next hread a
    obtain ⟨hd', d₀, hd₀, hback⟩ := hd.moves ha
    obtain ⟨hself', hself₀⟩ := unfiltered_next hself hd.1.inv ha
    have hm : m.tcode ≠ .Idle := hidle _ List.mem_cons_self
    have hidle' : ∀ q ∈ ms, q.2.tcode ≠ .Idle := fun q hq => hidle q (List.mem_cons_of_mem _ hq)
    have hsrc : a'.src.toNat = m.src.toNat := hsame.src (hsame.1 ▸ hm)
    by_cases hm_src : m.src.toNat = f.toInt
    · -- the file has the message
      rw [of_source_cons_pos hm_src] at hdec'
      obtain ⟨hread', hrest'⟩ := hdec'.of_cons
      rw [List.drop_drop] at hrest'
      obtain ⟨e', b', -, hb, hsame', -⟩ := he.next hread' b
      obtain ⟨he', e₀, he₀, hback'⟩ := he.moves hb
      have hkeep : msg_decoder_next (d.sifts f, a) = some (.ok n, d'.sifts f, a') :=
        sifts_keeps hf hd.1.inv (hself.symm ▸ ha) fun _ _ => (congrArg Nat.cast hsrc).trans hm_src
      refine ⟨n, _, _, hkeep, hb, .mk hf hd' he' hself' hrest hrest' hidle' htrail.tail, ⟨d₀.sifts f, e₀, ?_, he₀, ?_⟩,
        fun _ => ⟨hsame.trans hsame'.symm, hsame.1 ▸ hm⟩, fun h0 => absurd h0 (Nat.ne_of_gt hpos)⟩
      · rw [rewind_sifts, hd₀]
        rfl
      · refine .mk hf hback hback' (hself₀ d₀ hd₀) hdec ?_ hidle htrail
        rw [of_source_cons_pos hm_src]
        exact hdec'
    · -- the message is dropped
      rw [of_source_cons_neg hm_src] at hdec'
      obtain ⟨k, rfl⟩ := Nat.exists_eq_succ_of_ne_zero (Nat.ne_of_gt hpos)
      obtain ⟨k', x, y, hx, hy, hagree⟩ := ih (a := a') (b := b) hd' he hself' hrest hdec' hidle' htrail.tail
      refine ⟨k', x, y, ?_, hy, hagree.behind, hagree.back, hagree.same, fun h0 => ?_⟩
      · rw [sifts_drops hf hd.1.inv (hself.symm ▸ ha) (hsrc ▸ hm_src)]
        exact hx
      · obtain ⟨hyb, ⟨hnil, hxa⟩ | hlast⟩ := hagree.at_end h0
        · refine ⟨hyb, .inr ?_⟩
          rw [hxa, ← htrail (k + 1, m) (by rw [hnil]; rfl) hm_src]
          exact hsame
        · exact ⟨hyb, .inr hlast⟩

theorem Sifted.agrees (h : Sifted hwcfg S S' f last d e) (a b : Msg) : ∃ ms n x y, msg_decoder_next (d, a) = some (.ok n, x) ∧
    msg_decoder_next (e, b) = some (.ok n, y) ∧ Agrees hwcfg S S' f last ms a b n x y := by
  obtain ⟨hf, hd, he, hself, hdec, hdec', hidle, htrail⟩ := h
  obtain ⟨n, x, y, hx, hy, hagree⟩ := sifted_agrees hf _ (a := a) (b := b) hd he hself hdec hdec' hidle htrail
  exact ⟨_, n, x, y, hx, hy, hagree⟩

theorem Sifted.inv (h : Sifted hwcfg S S' f last d e) : DecoderInv d ∧ DecoderInv e := by
  obtain ⟨-, hd, he, -⟩ := h
  exact ⟨sifts_inv hd.1.inv f, he.1.inv⟩

theorem Sifted.unfiltered (h : Sifted hwcfg S S' f last d e) : e.src_filter < 0 := by
  obtain ⟨-, -, he, -⟩ := h
  exact he.1.unfiltered

/-- The two are a pair, where the messages of the caller hold what the filter leaves in them at the end. -/
theorem sifted_pairs (hwcfg : HwCfg) (S S' : List UInt8) (f : Int16) (last : Msg) :
    msg_source.Pairs msg_source (Sifted hwcfg S S' f last) Eq fun m => m.Same last := by
  apply Source.Pairs.of_lawful msg_source_lawful msg_source_lawful
  · exact fun h => by rw [h]
  · exact Sifted.inv
  · rintro d e ⟨-, hd, he, -⟩
    exact hd.1.cfg.trans he.1.cfg.symm
  · intro d e h a b
    obtain ⟨ms, n, x, y, hx, hy, hagree⟩ := h.agrees a b
    refine ⟨.ok n, .ok n, x, y, hx, hy, .of_eq rfl, hagree.behind, ?_, fun _ _ => hagree.back⟩
    intro n' hn' hn
    cases hn'
    by_cases h0 : n = 0
    · obtain ⟨hsame, hlast⟩ := hn.resolve_left (not_not_intro h0)
      obtain ⟨hyb, ⟨-, hxa⟩ | hxl⟩ := hagree.at_end h0
      · rw [hxa, hyb]
        exact hsame
      · rw [hyb]
        exact hxl.trans hlast.symm
    · exact (hagree.same h0).1

/-- A filter that comes to no Idle message blurs no look-ahead. -/
theorem sifted_unblurred (hwcfg : HwCfg) (S S' : List UInt8) (f : Int16) (last : Msg) :
    Unblurred fun d => ∃ e, Sifted hwcfg S S' f last d e where
  lawful := (sifted_pairs hwcfg S S' f last).lawful
  inv := by
    rintro d ⟨e, h⟩
    exact h.inv.1
  ends := by
    rintro d kind ⟨e, h⟩ (hidle | ⟨mem, d', m, hn, -⟩)
    · obtain ⟨-, hd, he, hself, hdec, hdec', hno, htrail⟩ := h
      obtain ⟨-, n, d', m, hn, hm⟩ := hidle
      rename_i d p q ms
      change msg_decoder_next (d.sifts (-1), Msg.zero) = _ at hn
      rw [hself] at hn
      rcases ms with _ | ⟨⟨k, m₀⟩, ms⟩
      · obtain ⟨d₁, m₁, h₁⟩ := hd.eof hdec.of_nil Msg.zero
        cases hn.symm.trans h₁
      · obtain ⟨d₁, m₁, -, h₁, hsame, -⟩ := hd.next hdec.of_cons.1 Msg.zero
        cases hn.symm.trans h₁
        exact absurd (hsame.1.symm.trans hm) (hno _ List.mem_cons_self)
    · obtain ⟨-, n, x, y, hx, hy, -⟩ := h.agrees mem Msg.zero
      obtain ⟨-, n', x', y', hx', hy', -⟩ := h.agrees Msg.zero Msg.zero
      cases hn.symm.trans hx
      cases hy.symm.trans hy'
      exact ⟨x'.1, x'.2, hx'⟩

end Sift

/-! ## Calls on both -/

/-- Two runs that both fail an assertion, or return the same, call for call, and end at the same time with the same call sites. -/
def SameCalls (N : Nat → Nat → Prop) (x y : Option (List (Except NexusError Result) × TraceDecoder MsgDecoder)) : Prop :=
  (x = none ∧ y = none) ∨ ∃ rs u rs' v, x = some (rs, u) ∧ y = some (rs', v) ∧ List.Forall₂ (SameReturn N) rs rs' ∧
    u.timestamp = v.timestamp ∧ u.return_stack.contents = v.return_stack.contents

section Calls
variable {hwcfg : HwCfg} {S S' : List UInt8} {f : Int16} {max : Nat} {last : Msg} {s t : TraceDecoder MsgDecoder} {env env' : Env} {c : Call}

theorem exec_sifted (hmax : max < 2 ^ 31) (h : Twins (Sifted hwcfg S S' f last) (RetStack.Alike max) s t) (hroom : SameRoom env env')
    (hs : ¬ c.LooksPast env s) (ht : ¬ c.LooksPast env' t) :
    (exec msg_source env c s = none ∧ exec msg_source env' c t = none) ∨ ∃ r u r' v, exec msg_source env c s = some (r, u) ∧
      exec msg_source env' c t = some (r', v) ∧ SameReturn Eq r r' ∧ Twins (Sifted hwcfg S S' f last) (RetStack.Alike max) u v := by
  obtain ⟨halloc, hmem, hmem'⟩ := hroom
  by_cases hc : c = .skip
  · exact exec_paired (sifted_pairs hwcfg S S' f last) (fun _ => rfl) hmax h halloc hmem hmem' (.inl hc)
  have hd := h.msg_decoder
  have hinv := hd.inv
  -- messages that hold what the filter leaves in them do as well
  have heq : exec msg_source env c s = exec msg_source ⟨fun _ => last, env.alloc, env.mem⟩ c s := by
    apply exec_within (sifted_unblurred hwcfg S S' f last) _ _ ⟨_, hd⟩ hc hs
    · rfl
    · rfl
  have heq' : exec msg_source env' c t = exec msg_source ⟨fun _ => last, env'.alloc, env'.mem⟩ c t := by
    apply exec_within (unfiltered_unblurred hd.unfiltered) _ _ ⟨hinv.2, rfl⟩ hc ht
    · rfl
    · rfl
  rw [heq, heq']
  exact exec_paired (sifted_pairs hwcfg S S' f last) (fun _ => rfl) hmax h halloc hmem hmem' (.inr ⟨rfl, fun _ => .refl last⟩)

theorem play_sifted (hmax : max < 2 ^ 31) (calls : List (Env × Env × Call)) (h : Twins (Sifted hwcfg S S' f last) (RetStack.Alike max) s t)
    (hroom : ∀ x ∈ calls, SameRoom x.1 x.2.1) (hs : NeverPast (calls.map fun x => (x.1, x.2.2)) s)
    (ht : NeverPast (calls.map fun x => (x.2.1, x.2.2)) t) :
    SameCalls Eq (play msg_source (calls.map fun x => (x.1, x.2.2)) s) (play msg_source (calls.map fun x => (x.2.1, x.2.2)) t) := by
  have hrun := play_related (N := Eq) (K := fun calls s t => Twins (Sifted hwcfg S S' f last) (RetStack.Alike max) s t ∧
    (∀ x ∈ calls, SameRoom x.1 x.2.1) ∧ NeverPast (calls.map fun x => (x.1, x.2.2)) s ∧ NeverPast (calls.map fun x => (x.2.1, x.2.2)) t) ?_ calls
    ⟨h, hroom, hs, ht⟩
  · rcases hrun with hnone | ⟨rs, u, rs', v, hu, hv, hrs, hend, -⟩
    · exact .inl hnone
    · exact .inr ⟨rs, u, rs', v, hu, hv, hrs, by cases hend; rfl, hend.return_stack.contents_eq⟩
  · rintro env env' c calls s t ⟨h, hroom, ⟨hsnow, hslater⟩, htnow, htlater⟩
    rcases exec_sifted hmax h (hroom _ List.mem_cons_self) hsnow htnow with hnone | ⟨r, u, r', v, hs, ht, hr, huv⟩
    · exact .inl hnone
    · exact .inr ⟨r, u, r', v, hs, ht, hr, huv, fun x hx => hroom x (List.mem_cons_of_mem _ hx), hslater r u hs, htlater r' v ht⟩

/-- Decoding a trace with the filter `f`, and decoding the file that `split` writes for this source, is the same to whoever calls the trace decoder:
the calls fail the same assertions and return the same, as long as no look-ahead runs past the end. -/
theorem filter_is_split {ms : List (Nat × Msg)} {src : Nat} (hdec : Decodes hwcfg S ms []) (hidle : ∀ q ∈ ms, q.2.tcode ≠ .Idle)
    (hknown : ∀ q ∈ ms, q.2.src.toNat = src → msg_known q.2 = true) (hf : f.toInt = src) (hsrc : src < 2 ^ hwcfg.src_bits) (hmax : hwcfg.max_stack < 2 ^ 31)
    (buffer : List UInt8) (hsize : ∀ q ∈ ms, q.1 ≤ buffer.length) (mem : Nat → Msg) :
    ∃ z file, split hwcfg S buffer mem = some (.ok (), z) ∧ z.files[src]? = some file ∧ ∀ (wide narrow : List UInt8),
      (∀ q ∈ ms, q.1 ≤ wide.length) → (∀ q ∈ ms, q.2.src.toNat = src → q.1 ≤ narrow.length) → ∀ {s t : TraceDecoder MsgDecoder} {env env' : Env},
      trace_decoder_init msg_source env (msg_decoder_init hwcfg ⟨S, []⟩ f wide wide.length) = .ok s →
      trace_decoder_init msg_source env' (msg_decoder_init hwcfg ⟨file.bytes, []⟩ (-1) narrow narrow.length) = .ok t →
      ∀ calls : List (Env × Env × Call), (∀ x ∈ calls, SameRoom x.1 x.2.1) →
        NeverPast (calls.map fun x => (x.1, x.2.2)) s → NeverPast (calls.map fun x => (x.2.1, x.2.2)) t →
        SameCalls Eq (play msg_source (calls.map fun x => (x.1, x.2.2)) s) (play msg_source (calls.map fun x => (x.2.1, x.2.2)) t) := by
  obtain ⟨z, hz, -, -, hfiles⟩ := split_partition hdec hsize mem
  obtain ⟨file, hfile, -, -, -, hread⟩ := hfiles src hsrc
  refine ⟨z, file, hz, hfile, ?_⟩
  intro wide narrow hwide hnarrow s t env env' hs ht calls hroom hpast hpast'
  have hsame : (ms.filter fun q => goes_to src q.2) = of_source f ms := by
    apply List.filter_congr
    intro q hq
    have hno : msg_idle q.2 = false := decide_eq_false (hidle q hq)
    by_cases heq : q.2.src.toNat = src
    · simp [goes_to, hno, hf, heq, hknown q hq heq]
    · simp [goes_to, hf, heq]
  rw [hsame] at hread
  have hfits : Fits narrow.length file.bytes := by
    apply hread.fits
    intro q hq
    obtain ⟨hq, heq⟩ := List.mem_filter.1 hq
    have heq : (q.2.src.toNat : Int) = f.toInt := of_decide_eq_true heq
    exact hnarrow q hq (by omega)
  obtain ⟨last, hlast⟩ : ∃ last, Trails f last ms := by
    rcases hms : ms.getLast? with _ | q
    · exact ⟨Msg.zero, fun q hq => by rw [hms] at hq; cases hq⟩
    · refine ⟨q.2, fun q' hq _ => ?_⟩
      rw [hms] at hq
      rw [Option.some.inj hq]
  have hsifted : Sifted hwcfg S file.bytes f last (msg_decoder_init hwcfg ⟨S, []⟩ f wide wide.length)
      (msg_decoder_init hwcfg ⟨file.bytes, []⟩ (-1) narrow narrow.length) :=
    .mk (Int16.le_iff_toInt_le.2 (hf ▸ Int.natCast_nonneg src)) (init_streams hwcfg (hdec.fits hwide)) (init_streams hwcfg hfits) rfl hdec hread hidle hlast
  exact play_sifted hmax calls (init_twins hs ht rfl hsifted) hroom hpast hpast'

def two_cfg : HwCfg := { plain_cfg with src_bits := 1 }

/-- A sync message and a branch of the source 1, each followed by a branch of the source 0. -/
def two_bytes : List UInt8 := [0x24, 0x05, 0x07, 0x0c, 0x2b, 0x0c, 0x1f, 0x0c, 0x2b]

/-- A search that finds a sync message first looks at nothing behind it. -/
theorem sync_first {n : Nat} {d : MsgDecoder} {m : Msg} (hp : s.msg_present = false)
    (hn : msg_source.next (s.msg_decoder, s.msg) = some (.ok n, d, m)) (hy : msg_is_sync m = true) : ¬ Call.sync_reset.LooksPast env s := by
  have hno : repeatable m = false := by
    by_contra h
    rw [repeatable_no_sync (by simpa using h)] at hy
    cases hy
  rintro ⟨-, u, hu, d', m', hb, -⟩
  cases hu with
  | here =>
    obtain ⟨n', -, hn'⟩ := hb.next
    cases hn.symm.trans hn'
    exact absurd hb.repeatable (by simp [hno])
  | dropped hf hsync =>
    obtain ⟨n', d₁, m₁, -, hn', htc, -⟩ := (fetch_cases hf).takes hp
    cases hn.symm.trans hn'
    rw [msg_is_sync, htc] at hsync
    rw [msg_is_sync, hsync] at hy
    cases hy

theorem filter_is_split_two : ∃ (z : Splitter) (file : SplitFile) (s t : TraceDecoder MsgDecoder),
    split two_cfg two_bytes [0, 0, 0] (fun _ => Msg.zero) = some (.ok (), z) ∧ z.files[1]? = some file ∧
    SameCalls Eq (play msg_source [(roomy_env, .sync_reset)] s) (play msg_source [(roomy_env, .sync_reset)] t) := by
  have hread : ∀ {bs : List UInt8} {n : Nat} {m : Msg}, msg_decode two_cfg bs Msg.zero = some (.ok n, m) → Reads two_cfg bs n m := by
    intro bs n m h
    have h := reads_of_decode h []
    rwa [List.append_nil] at h
  have hdec : Decodes two_cfg two_bytes [(3, { Msg.zero with tcode := .ProgTraceSync, src := 1, xaddr := 1 }),
      (2, { Msg.zero with tcode := .DirectBranch, icnt := 5 }), (2, { Msg.zero with tcode := .DirectBranch, src := 1, icnt := 3 }),
      (2, { Msg.zero with tcode := .DirectBranch, icnt := 5 })] [] :=
    .cons (hread (by decide)) (.cons (hread (by decide)) (.cons (hread (by decide)) (.cons (hread (by decide)) (.nil _))))
  obtain ⟨z, file, hz, hfile, hsame⟩ := filter_is_split hdec (by decide) (by decide) (show (1 : Int16).toInt = (1 : Nat) by decide) (by decide) (by decide)
    [0, 0, 0] (by decide) fun _ => Msg.zero
  -- the file of the source 1
  have hbytes : file.bytes = [0x24, 0x05, 0x07, 0x0c, 0x1f] := by
    have hrun : (split two_cfg two_bytes [0, 0, 0] (fun _ => Msg.zero)).map (fun r => (r.2.files[1]?).map SplitFile.bytes) =
        some (some [0x24, 0x05, 0x07, 0x0c, 0x1f]) := by decide +kernel
    rw [hz, Option.map_some, hfile] at hrun
    simpa using hrun
  have hinit : ∀ d : MsgDecoder, d.hw_cfg = two_cfg → trace_decoder_init msg_source roomy_env d =
      .ok ⟨d, [], 0, 0, 0, 0, false, false, Msg.zero, 0, 0, ⟨[], 0, 0, 0, 0⟩⟩ := by
    intro d hd
    simp only [trace_decoder_init, msg_source, hd]
    rfl
  refine ⟨z, file, _, _, hz, hfile, hsame [0, 0, 0] [0, 0, 0] (by decide) (by decide) (hinit _ rfl) (hinit _ rfl)
    [(roomy_env, roomy_env, .sync_reset)] ?_ ⟨?_, fun _ _ _ => trivial⟩ ⟨?_, fun _ _ _ => trivial⟩⟩
  · intro x hx
    rw [List.mem_singleton] at hx
    rw [hx]
    exact ⟨rfl, fun _ => rfl, fun _ => rfl⟩
  · exact sync_first rfl rfl rfl
  · rw [hbytes]
    exact sync_first rfl rfl rfl

end Calls

end nexusrv
