import NexusRv.Text
/-!
# Errors of the assembler

`assemble` passes `rc`, the result of the reader, to `error` where the encoder has failed.
It is 0 there, `error` returns, and the program goes on with the error of the encoder as a
number of bytes: in text mode it prints that number, and in binary mode it writes as many bytes.
-/

namespace nexusrv

open Scan

/-! ## The program in both modes -/

/-- The value of the error in `enum nexus_error`. -/
def NexusError.code : NexusError → Nat
  | .no_mem => 1
  | .buffer_too_small => 2
  | .hwcfg_invalid => 3
  | .stream_bad_mseo => 4
  | .stream_truncate => 5
  | .stream_read_failed => 6
  | .msg_invalid => 7
  | .msg_missing_field => 8
  | .msg_unsupported => 9
  | .trace_eof => 10
  | .trace_not_synced => 11
  | .trace_hist_overflow => 12
  | .trace_icnt_overflow => 13
  | .trace_retstack_empty => 14
  | .trace_mismatch => 15

/-- `" %02hhx"`. -/
def hex_byte (b : UInt8) : List Char := [' ', Nat.digitChar (b.toNat / 16), Nat.digitChar (b.toNat % 16)]

/-- A line of text mode: the number `n`, and the bytes. -/
def text_line (n : Nat) (bytes : List UInt8) : List Char := ('[' :: Nat.toDigits 10 n) ++ (']' :: (bytes.flatMap hex_byte ++ ['\n']))

def ascii (s : List Char) : List UInt8 := s.map fun c => .ofNat c.toNat

/-- What is written of a message that was encoded. -/
def emit (text : Bool) (bytes : List UInt8) : List UInt8 := if text then ascii (text_line bytes.length bytes) else bytes

/-- The round of `assemble` behind the reader. `bytes` is negative after an error: as a `size_t` it is printed, but there is no byte
below it; that many bytes behind `buffer` are not there to be written. -/
def assemble_mode_msg (text : Bool) (hwcfg : HwCfg) (m : Msg) : Proc Assembler AsmStop Unit := fun s =>
  match msg_encode hwcfg (List.replicate NEXUS_RV_MSG_MAX_BYTES 0) NEXUS_RV_MSG_MAX_BYTES m with
  | some (.ok bytes, buffer) => some (.ok (), { s with emitted := s.emitted + bytes, fp := s.fp ++ emit text (buffer.take bytes) })
  | some (.error e, _) =>
    if text then some (.ok (), { s with emitted := (s.emitted + (2 ^ 64 - e.code)) % 2 ^ 64, fp := s.fp ++ ascii (text_line (2 ^ 64 - e.code) []) })
    else none
  | none => none

/-- The loop of `assemble`, with its argument `text`. -/
def assemble_mode_loop (text : Bool) (hwcfg : HwCfg) (mem : Nat → Msg) : Nat → Proc Assembler AsmStop Unit
  | 0 => Proc.assert false
  | fuel + 1 => do
    let s ← Proc.get
    let r := scan asm_format s.stdin
    Proc.modify fun s => { s with stdin := r.rest }
    match r.values with
    | [] => if r.eof then pure () else Proc.fail .no_message
    | [.number msgid, .word _] => do
      Proc.modify fun s => { s with msgid := msgid }
      match read_msg (r.rest, mem r.rest.length) with
      | none => Proc.assert false
      | some (.error e, rest, _) => do
        Proc.modify fun s => { s with stdin := rest }
        Proc.fail (.parse e)
      | some (.ok (), rest, m) => do
        Proc.modify fun s => { s with stdin := rest }
        assemble_mode_msg text hwcfg m
        assemble_mode_loop text hwcfg mem fuel
    | _ => Proc.fail .no_message

def assemble_mode (text : Bool) (hwcfg : HwCfg) (input : List Char) (mem : Nat → Msg) : Option (Except AsmStop Unit × List UInt8) :=
  (assemble_mode_loop text hwcfg mem (input.length + 1) ⟨input, 0, 0, []⟩).map fun r => (r.1, r.2.fp)

/-- `assemble` is the program in binary mode. -/
theorem assemble_mode_binary (hwcfg : HwCfg) (input : List Char) (mem : Nat → Msg) : assemble_mode false hwcfg input mem = assemble hwcfg input mem := by
  have hmsg : assemble_mode_msg false hwcfg = assemble_msg hwcfg := by
    funext m s
    unfold assemble_mode_msg assemble_msg
    rcases msg_encode hwcfg (List.replicate NEXUS_RV_MSG_MAX_BYTES 0) NEXUS_RV_MSG_MAX_BYTES m with _ | ⟨_ | _, _⟩ <;> rfl
  have hloop : ∀ fuel, assemble_mode_loop false hwcfg mem fuel = assemble_loop hwcfg mem fuel := by
    intro fuel
    induction fuel with
    | zero => rfl
    | succ fuel ih =>
      rw [assemble_mode_loop, hmsg, ih]
      rfl
  rw [assemble_mode, assemble, hloop]

/-! ## The messages of a text -/

/-- The text is read as the messages `ms`, and then ends, or there is one that fails to parse. -/
inductive TextMsgs (mem : Nat → Msg) : List Char → List Msg → Except AsmStop Unit → Prop where
  | eof {s : List Char} : (scan asm_format s).values = [] → (scan asm_format s).eof = true → TextMsgs mem s [] (.ok ())
  | no_message {s : List Char} : ((scan asm_format s).values = [] → (scan asm_format s).eof = false) →
      (∀ n w, (scan asm_format s).values ≠ [.number n, .word w]) → TextMsgs mem s [] (.error .no_message)
  | unparsed {s rest : List Char} {n : Nat} {w : List Char} {e : NexusError} {m : Msg} : (scan asm_format s).values = [.number n, .word w] →
      read_msg ((scan asm_format s).rest, mem (scan asm_format s).rest.length) = some (.error e, rest, m) → TextMsgs mem s [] (.error (.parse e))
  | cons {s rest : List Char} {n : Nat} {w : List Char} {m : Msg} {ms : List Msg} {stop : Except AsmStop Unit} :
      (scan asm_format s).values = [.number n, .word w] →
      read_msg ((scan asm_format s).rest, mem (scan asm_format s).rest.length) = some (.ok (), rest, m) →
      TextMsgs mem rest ms stop → TextMsgs mem s (m :: ms) stop

/-- The encoding of a message that is not rejected. -/
def encoding (hwcfg : HwCfg) (m : Msg) : Option (List UInt8) :=
  match msg_encode hwcfg (List.replicate NEXUS_RV_MSG_MAX_BYTES 0) NEXUS_RV_MSG_MAX_BYTES m with
  | some (.ok bytes, buffer) => some (buffer.take bytes)
  | _ => none

/-- The encodings of the messages in front of the first one that is rejected. -/
def accepted (hwcfg : HwCfg) : List Msg → List (List UInt8)
  | [] => []
  | m :: ms => match encoding hwcfg m with
    | some bytes => bytes :: accepted hwcfg ms
    | none => []

/-- The text in front of a message takes a character. -/
theorem asm_scan_length {s : List Char} (h : (scan asm_format s).values ≠ []) : (scan asm_format s).rest.length < s.length := by
  have hformat : asm_format = .space :: .char 'M' :: (directives "sg #".toList ++ [.number 10 64, .space, .word]) := rfl
  have hdrop : (s.dropWhile isSpace).length ≤ s.length := (List.dropWhile_sublist _).length_le
  rw [hformat, scan] at h ⊢
  cases hs : s.dropWhile isSpace with
  | nil =>
    rw [hs] at h
    exact absurd rfl h
  | cons x t =>
    rw [hs] at h hdrop
    unfold scan at h ⊢
    split at h
    · rename_i hx
      rw [if_pos hx]
      exact Nat.lt_of_le_of_lt (scan_length _ t) hdrop
    · exact absurd rfl h

section Reader
variable {k : Nat}

/-- A field is read, and what is known of the message stays true. -/
theorem scanf_keeps {K : Msg → Prop} (f : Format) (field : Nat → Msg → Msg) (hK : ∀ v m, K m → K (field v m)) :
    Proc.Safe (fun s : List Char × Msg => s.1.length ≤ k ∧ K s.2) (CHECK_SCANF f field) (fun _ s => s.1.length ≤ k ∧ K s.2) fun _ _ => True := by
  refine Proc.Safe.get_bind fun s hs => ?_
  have hle := Nat.le_trans (scan_length f.scan s.1) hs.1
  dsimp only
  split
  · exact Proc.safe_modify fun t ht => ⟨hle, hK _ _ (ht ▸ hs.2)⟩
  · exact (Proc.safe_modify (S := fun _ _ => True) fun _ _ => trivial).bind fun _ => Proc.safe_fail fun _ _ => trivial

theorem scanf_safe (f : Format) (field : Nat → Msg → Msg) :
    Proc.Safe (fun s : List Char × Msg => s.1.length ≤ k) (CHECK_SCANF f field) (fun _ s => s.1.length ≤ k) fun _ _ => True :=
  Proc.Safe.mono (scanf_keeps (K := fun _ => True) f field fun _ _ _ => trivial) (fun _ h => ⟨h, trivial⟩) fun _ _ h => h.1

theorem read_common_safe : Proc.Safe (fun s : List Char × Msg => s.1.length ≤ k ∧ common_tcode s.2) read_common (fun _ s => s.1.length ≤ k) fun _ _ => True := by
  refine Proc.Safe.get_bind fun s hs => ?_
  have hicnt : msg_has_icnt s.2 = true := (common_preds rfl hs.2).1
  refine Proc.Safe.mono (P := fun s : List Char × Msg => s.1.length ≤ k) ?_ (fun t ht => ht ▸ hs.1) fun _ _ h => h
  refine (Proc.Safe.when (fun _ => scanf_safe _ _) fun _ _ h => h).bind fun _ => ?_
  refine (Proc.Safe.when (fun _ => scanf_safe _ _) fun _ _ h => h).bind fun _ => ?_
  refine Proc.Safe.bind (Q := fun _ (s : List Char × Msg) => s.1.length ≤ k) (Proc.safe_assert (fun _ _ => hicnt) fun _ h => h) fun _ => ?_
  refine Proc.Safe.bind (Q := fun _ (s : List Char × Msg) => s.1.length ≤ k) (Proc.safe_modify fun _ h => h) fun _ => (scanf_safe _ _).bind fun _ => ?_
  exact (Proc.Safe.when (fun _ => scanf_safe _ _) fun _ _ h => h).bind fun _ => Proc.Safe.when (fun _ => scanf_safe _ _) fun _ _ h => h

theorem read_reset_safe : Proc.Safe (fun s : List Char × Msg => s.1.length ≤ k) read_reset (fun _ s => s.1.length ≤ k) fun _ _ => True :=
  Proc.safe_modify fun _ h => h

theorem read_rest_safe (tcode : Tcode) :
    Proc.Safe (fun s : List Char × Msg => s.1.length ≤ k) (read_rest tcode) (fun _ s => s.1.length ≤ k) fun _ _ => True := by
  have hnone : Proc.Safe (fun s : List Char × Msg => s.1.length ≤ k) (pure () : Reader Unit) (fun _ s => s.1.length ≤ k) fun _ _ => True :=
    Proc.safe_pure fun _ h => h
  cases tcode with
  | Ownership => exact (scanf_safe _ _).bind fun _ => (scanf_safe _ _).bind fun _ => (scanf_safe _ _).bind fun _ => scanf_safe _ _
  | Error => exact (scanf_safe _ _).bind fun _ => scanf_safe _ _
  | ResourceFull =>
    refine (scanf_safe _ _).bind fun _ => Proc.Safe.get_bind fun s hs => ?_
    refine Proc.Safe.mono (P := fun s : List Char × Msg => s.1.length ≤ k) ?_ (fun t ht => ht ▸ hs) fun _ _ h => h
    refine Proc.Safe.ite (fun _ => scanf_safe _ _) fun _ => read_reset_safe.bind fun _ => ?_
    split
    · exact scanf_safe _ _
    · exact scanf_safe _ _
    · exact (scanf_safe _ _).bind fun _ => scanf_safe _ _
  | RepeatBranch => exact scanf_safe _ _
  | ProgTraceCorrelation =>
    refine read_reset_safe.bind fun _ => (scanf_safe _ _).bind fun _ => (scanf_safe _ _).bind fun _ => (scanf_safe _ _).bind fun _ => ?_
    refine Proc.Safe.get_bind fun s hs => Proc.Safe.mono (P := fun s : List Char × Msg => s.1.length ≤ k) ?_ (fun t ht => ht ▸ hs) fun _ _ h => h
    exact Proc.Safe.when (fun _ => scanf_safe _ _) fun _ _ h => h
  | ICT =>
    refine (scanf_safe _ _).bind fun _ => (scanf_safe _ _).bind fun _ => (scanf_safe _ _).bind fun _ => ?_
    refine Proc.Safe.get_bind fun s hs => Proc.Safe.mono (P := fun s : List Char × Msg => s.1.length ≤ k) ?_ (fun t ht => ht ▸ hs) fun _ _ h => h
    exact Proc.Safe.when (fun _ => scanf_safe _ _) fun _ _ h => h
  | _ => exact hnone

/-- The reader fails no assertion, and leaves no more text than there was. -/
theorem read_msg_safe : Proc.Safe (fun s : List Char × Msg => s.1.length ≤ k) read_msg (fun _ s => s.1.length ≤ k) fun _ _ => True := by
  refine (scanf_safe _ _).bind fun _ => (scanf_safe _ _).bind fun _ => Proc.Safe.get_bind fun s hs => ?_
  refine Proc.Safe.ite (fun _ => Proc.safe_pure fun t ht => ht ▸ hs) fun _ => ?_
  by_cases hc : common_tcode s.2
  · rw [if_pos hc]
    have hsrc := scanf_keeps (k := k) (K := fun m => common_tcode m) NEXUS_FMT_SRC Msg.set_src fun _ _ h => h
    exact (hsrc.bind fun _ => read_common_safe).mono (fun t ht => by rw [ht]; exact ⟨hs, hc⟩) fun _ _ h => h
  · rw [if_neg hc]
    exact ((scanf_safe _ _).bind fun _ => read_rest_safe _).mono (fun t ht => ht ▸ hs) fun _ _ h => h

end Reader

/-- A round takes a character at least. -/
theorem read_rest_length {mem : Nat → Msg} {s rest w : List Char} {n : Nat} {m : Msg} (hv : (scan asm_format s).values = [.number n, .word w])
    (hread : read_msg ((scan asm_format s).rest, mem (scan asm_format s).rest.length) = some (.ok (), rest, m)) : rest.length < s.length := by
  have hlt : (scan asm_format s).rest.length < s.length := asm_scan_length (by rw [hv]; exact List.cons_ne_nil _ _)
  have hsafe := read_msg_safe ((scan asm_format s).rest, mem (scan asm_format s).rest.length) (Nat.le_refl _)
  rw [hread] at hsafe
  rcases hsafe with ⟨_, _, heq, hle⟩ | ⟨_, _, heq, -⟩
  · cases heq
    exact Nat.lt_of_le_of_lt hle hlt
  · cases heq

section Texts
variable {mem : Nat → Msg} {ms : List Msg} {stop : Except AsmStop Unit}

variable (text : Bool) {hwcfg : HwCfg} {fuel : Nat} {s : List Char}

/-- A round in which a message is read. -/
theorem mode_loop_msg {rest w : List Char} {n : Nat} {m : Msg} (hv : (scan asm_format s).values = [.number n, .word w])
    (hread : read_msg ((scan asm_format s).rest, mem (scan asm_format s).rest.length) = some (.ok (), rest, m)) (a : Assembler) (ha : a.stdin = s) :
    assemble_mode_loop text hwcfg mem (fuel + 1) a =
      (do assemble_mode_msg text hwcfg m; assemble_mode_loop text hwcfg mem fuel) { a with stdin := rest, msgid := n } := by
  subst ha
  simp only [assemble_mode_loop, Proc.get_bind_apply, Proc.modify_bind_apply, hv, hread]

/-- A message that is encoded is written. -/
theorem mode_msg_encoded {m : Msg} {bytes : List UInt8} (h : encoding hwcfg m = some bytes) (a : Assembler) :
    ∃ emitted, assemble_mode_msg text hwcfg m a = some (.ok (), { a with emitted := emitted, fp := a.fp ++ emit text bytes }) := by
  unfold encoding at h
  split at h
  · rename_i k buffer henc
    cases h
    exact ⟨a.emitted + k, by simp only [assemble_mode_msg, henc]⟩
  · cases h

/-- Without a rejected message, the program writes the encodings and stops where the reader does. -/
theorem mode_loop_accepted (h : TextMsgs mem s ms stop) (hall : ∀ m ∈ ms, (encoding hwcfg m).isSome = true) (hfuel : s.length < fuel) (a : Assembler)
    (ha : a.stdin = s) : ∃ a', assemble_mode_loop text hwcfg mem fuel a = some (stop, a') ∧ a'.fp = a.fp ++ ((accepted hwcfg ms).map (emit text)).flatten := by
  induction h generalizing fuel a with
  | @eof s hv heof =>
    obtain ⟨f, rfl⟩ : ∃ f, fuel = f + 1 := ⟨fuel - 1, by omega⟩
    subst ha
    refine ⟨{ a with stdin := (scan asm_format a.stdin).rest }, ?_, (List.append_nil _).symm⟩
    simp only [assemble_mode_loop, Proc.get_bind_apply, Proc.modify_bind_apply, hv, heof, if_true, Proc.pure_apply]
  | @no_message s hnil hother =>
    obtain ⟨f, rfl⟩ : ∃ f, fuel = f + 1 := ⟨fuel - 1, by omega⟩
    subst ha
    refine ⟨{ a with stdin := (scan asm_format a.stdin).rest }, ?_, (List.append_nil _).symm⟩
    simp only [assemble_mode_loop, Proc.get_bind_apply, Proc.modify_bind_apply]
    rcases hv : (scan asm_format a.stdin).values with _ | ⟨v, _ | ⟨x, _ | ⟨y, l⟩⟩⟩
    · dsimp only
      rw [hnil hv, if_neg Bool.false_ne_true, Proc.fail_apply]
    · cases v <;> rfl
    · cases v <;> cases x <;> first | exact absurd hv (hother _ _) | rfl
    · cases v <;> cases x <;> rfl
  | @unparsed s rest n w e m hv hread =>
    obtain ⟨f, rfl⟩ : ∃ f, fuel = f + 1 := ⟨fuel - 1, by omega⟩
    subst ha
    refine ⟨{ a with stdin := rest, msgid := n }, ?_, (List.append_nil _).symm⟩
    simp only [assemble_mode_loop, Proc.get_bind_apply, Proc.modify_bind_apply, hv, hread, Proc.fail_apply]
  | @cons s rest n w m ms stop hv hread _ ih =>
    obtain ⟨f, rfl⟩ : ∃ f, fuel = f + 1 := ⟨fuel - 1, by omega⟩
    obtain ⟨bytes, henc⟩ := Option.isSome_iff_exists.1 (hall m List.mem_cons_self)
    obtain ⟨emitted, hmsg⟩ := mode_msg_encoded text henc { a with stdin := rest, msgid := n }
    have hlt := read_rest_length hv hread
    have hf : rest.length < f := by omega
    obtain ⟨a', hrun, hfp⟩ := ih (fun x hx => hall x (List.mem_cons_of_mem _ hx)) hf
      { a with stdin := rest, msgid := n, emitted := emitted, fp := a.fp ++ emit text bytes } rfl
    refine ⟨a', ?_, ?_⟩
    · rw [mode_loop_msg text hv hread a ha, Proc.bind_ok hmsg]
      exact hrun
    · rw [hfp, accepted, henc, List.map_cons, List.flatten_cons, List.append_assoc]

end Texts

/-- A text is read in one way only. -/
theorem TextMsgs.unique {mem : Nat → Msg} {s : List Char} {ms ms' : List Msg} {stop stop' : Except AsmStop Unit} (h : TextMsgs mem s ms stop)
    (h' : TextMsgs mem s ms' stop') : ms = ms' ∧ stop = stop' := by
  induction h generalizing ms' with
  | eof hv heof =>
    cases h' with
    | eof => exact ⟨rfl, rfl⟩
    | no_message hnil =>
      rw [hnil hv] at heof
      cases heof
    | unparsed hv' | cons hv' =>
      rw [hv] at hv'
      cases hv'
  | no_message hnil hother =>
    cases h' with
    | eof hv' heof' =>
      rw [hnil hv'] at heof'
      cases heof'
    | no_message => exact ⟨rfl, rfl⟩
    | unparsed hv' | cons hv' => exact absurd hv' (hother _ _)
  | unparsed hv hread =>
    cases h' with
    | eof hv' =>
      rw [hv] at hv'
      cases hv'
    | no_message _ hother => exact absurd hv (hother _ _)
    | unparsed _ hread' =>
      rw [hread] at hread'
      cases hread'
      exact ⟨rfl, rfl⟩
    | cons _ hread' =>
      rw [hread] at hread'
      cases hread'
  | cons hv hread _ ih =>
    cases h' with
    | eof hv' =>
      rw [hv] at hv'
      cases hv'
    | no_message _ hother => exact absurd hv (hother _ _)
    | unparsed _ hread' =>
      rw [hread] at hread'
      cases hread'
    | cons _ hread' hrest' =>
      rw [hread] at hread'
      cases hread'
      obtain ⟨rfl, rfl⟩ := ih hrest'
      exact ⟨rfl, rfl⟩

end nexusrv
