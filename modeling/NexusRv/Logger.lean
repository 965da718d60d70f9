import Mathlib.Data.List.TakeDrop
import Mathlib.Data.List.TakeWhile
import Mathlib.Tactic.Common
import NexusRv.Lib.Repeats
import NexusRv.Lib.Scan
import NexusRv.Lib.Splice
/-!
# The log of a replay

`logger` compares a line with the one before it while its fragments are printed, and counts
the lines that repeat. The line before is overwritten in place, from the first fragment on
that differs.
-/

namespace nexusrv

open Scan Repeats

/-! ## The code -/

def NUL : Char := Char.ofNat 0

/-- Whether `strncmp`, with the length of the first text, finds no difference. -/
def strncmp_eq : List Char → List Char → Bool
  | [], _ => true
  | c :: s, t => decide (c = t.headD NUL) && (decide (c = NUL) || strncmp_eq s t.tail)

/-- What `%s` prints of a buffer. -/
def c_str (s : List Char) : List Char := s.takeWhile fun c => decide (c ≠ NUL)

structure Logger where
  out : List Char
  dirty : Bool
  buf : List Char
  bufpos : Nat
  repeated : Nat

namespace Logger

def new : Logger := ⟨[], false, [], 0, 0⟩

def marker (n : Nat) : List Char := "<repeated ".toList ++ (Nat.toDigits 10 n ++ " times>".toList)

def maybe_marker (l : Logger) : Logger :=
  if l.repeated = 0 then l else { l with out := l.out ++ (marker l.repeated ++ ['\n']), repeated := 0 }

/-- `print`, which `format` calls with the formatted text; `none` is the failed assertion. -/
def print (l : Logger) (str : List Char) : Option Logger :=
  if l.bufpos ≤ l.buf.length then
    let left := l.buf.length - l.bufpos
    if str.length ≤ left ∧ strncmp_eq str (l.buf.drop l.bufpos) = true then
      some { l with bufpos := l.bufpos + str.length }
    else
      let l := { l with dirty := true }.maybe_marker
      some { l with buf := splice NUL l.buf str l.bufpos, bufpos := l.bufpos + str.length }
  else none

/-- `newline` behind the change of the buffer. -/
def end_line (l : Logger) : Logger :=
  if l.dirty then { l.maybe_marker with out := l.maybe_marker.out ++ (c_str l.buf ++ ['\n']), dirty := false }
  else if !l.buf.isEmpty then { l with repeated := (l.repeated + 1) % 2 ^ 64, dirty := false }
  else { l with dirty := false }

def newline (l : Logger) : Logger := end_line { l with buf := l.buf.takeD l.bufpos NUL, bufpos := 0 }

def flush (l : Logger) : Logger := { l.newline with buf := [] }.maybe_marker

inductive Call where
  | print (str : List Char)
  | newline
  | flush

def call (l : Logger) : Call → Option Logger
  | .print str => l.print str
  | .newline => some l.newline
  | .flush => some l.flush

def run (l : Logger) (cs : List Call) : Option Logger := cs.foldlM call l

end Logger

/-- The calls for lines, each in its fragments. -/
def log_calls : List (List (List Char)) → List Logger.Call
  | [] => [.flush]
  | [line] => line.map .print ++ [.flush]
  | line :: lines => line.map .print ++ .newline :: log_calls lines

/-- What is printed of the lines. -/
def logged (lines : List (List (List Char))) : Option (List Char) := (Logger.new.run (log_calls lines)).map Logger.out

/-! ## Reading the log -/

/-- The number in a marker. -/
def marked (line : List Char) : Option Nat :=
  (after "<repeated ".toList line).bind fun s => (leading s).bind fun r => if r.2 = " times>".toList then some r.1 else none

def item (line : List Char) : Item (List Char) :=
  match marked line with
  | some n => .again n
  | none => .shown line

def text_lines (text : List Char) : List (List Char) := (text.splitOn '\n').dropLast

/-- The lines, with copies of the line before it for a marker. -/
def expanded (text : List Char) : List (List Char) := expand [] ((text_lines text).map item)

def item_line : Item (List Char) → List Char
  | .shown line => line
  | .again n => Logger.marker n

def item_text (i : Item (List Char)) : List Char := item_line i ++ ['\n']

/-- A line that counts as a repetition of the one before it. -/
abbrev Repeating (prev line : List Char) : Prop := line <+: prev

section Calls
variable {l l' : Logger} {str done line : List Char} {lines : List (List (List Char))}

/-! ## The calls -/

theorem strncmp_iff (hstr : NUL ∉ str) : ∀ {t : List Char}, str.length ≤ t.length → (strncmp_eq str t = true ↔ str <+: t) := by
  induction str with
  | nil =>
    intro t _
    exact iff_of_true rfl (List.nil_prefix)
  | cons c s ih =>
    intro t hlen
    cases t with
    | nil => exact absurd hlen (by simp)
    | cons x t =>
      have hc : c ≠ NUL := fun h => hstr (by rw [h]; exact List.mem_cons_self)
      have hrest := ih (fun h => hstr (List.mem_cons_of_mem _ h)) (t := t) (Nat.le_of_succ_le_succ hlen)
      rw [strncmp_eq, List.headD_cons, List.tail_cons, decide_eq_false hc, Bool.false_or, Bool.and_eq_true, decide_eq_true_iff, hrest,
        List.cons_prefix_cons]

/-- The marker is what a counter shows. -/
theorem maybe_marker_eq (l : Logger) : l.maybe_marker = { l with out := l.out ++ (counted l.repeated).flatMap item_text, repeated := 0 } := by
  unfold Logger.maybe_marker counted
  split
  · rename_i h
    rw [List.flatMap_nil, List.append_nil, ← h]
  · rw [List.flatMap_cons, List.flatMap_nil, List.append_nil]
    rfl

/-- A fragment is compared with what is in the buffer behind the text that was printed. -/
theorem print_eq (hdone : done <+: l.buf) (hpos : l.bufpos = done.length) (hstr : NUL ∉ str) : l.print str =
    some (if done ++ str <+: l.buf then { l with bufpos := (done ++ str).length } else
      { l.maybe_marker with dirty := true, buf := splice NUL l.buf str l.bufpos, bufpos := (done ++ str).length }) := by
  obtain ⟨t, ht⟩ := hdone
  have hle : l.bufpos ≤ l.buf.length := by rw [hpos, ← ht, List.length_append]; exact Nat.le_add_right _ _
  have hdrop : l.buf.drop l.bufpos = t := by rw [hpos, ← ht, List.drop_left]
  have hleft : l.buf.length - l.bufpos = t.length := by rw [hpos, ← ht, List.length_append, Nat.add_sub_cancel_left]
  have hiff : (str.length ≤ t.length ∧ strncmp_eq str t = true) ↔ done ++ str <+: l.buf := by
    rw [← ht, List.prefix_append_right_inj]
    constructor
    · exact fun h => (strncmp_iff hstr h.1).1 h.2
    · exact fun h => ⟨h.length_le, (strncmp_iff hstr h.length_le).2 h⟩
  unfold Logger.print
  dsimp only
  rw [if_pos hle, hdrop, hleft, ← apply_ite some]
  simp only [hiff, List.length_append, ← hpos, maybe_marker_eq]

/-- `done` was printed of a line that was started in the state `l`. -/
def Printed (l : Logger) (done : List Char) (l' : Logger) : Prop :=
  (done <+: l.buf ∧ l' = { l with bufpos := done.length }) ∨
    (¬ done <+: l.buf ∧ ∃ b, done <+: b ∧ l' = { l.maybe_marker with dirty := true, buf := b, bufpos := done.length })

theorem printed_print (h : Printed l done l') (hstr : NUL ∉ str) : ∃ l'', l'.print str = some l'' ∧ Printed l (done ++ str) l'' := by
  have hsplice : ∀ b : List Char, done <+: b → done ++ str <+: splice NUL b str done.length := by
    rintro b ⟨t, rfl⟩
    rw [splice, List.take_left, Nat.sub_eq_zero_of_le (by rw [List.length_append]; omega), List.replicate_zero, List.append_nil]
    exact List.prefix_append _ _
  rcases h with ⟨hpre, rfl⟩ | ⟨hpre, b, hb, rfl⟩
  · refine ⟨_, print_eq (l := { l with bufpos := done.length }) hpre rfl hstr, ?_⟩
    by_cases hnext : done ++ str <+: l.buf
    · rw [if_pos hnext]
      exact .inl ⟨hnext, rfl⟩
    · rw [if_neg hnext]
      refine .inr ⟨hnext, _, hsplice _ hpre, ?_⟩
      rw [maybe_marker_eq, maybe_marker_eq]
  · have hnot : ¬ done ++ str <+: l.buf := fun h => hpre ((List.prefix_append _ _).trans h)
    refine ⟨_, print_eq (l := { l.maybe_marker with dirty := true, buf := b, bufpos := done.length }) hb rfl hstr, ?_⟩
    by_cases hnext : done ++ str <+: b
    · rw [if_pos hnext]
      exact .inr ⟨hnot, b, hnext, rfl⟩
    · rw [if_neg hnext]
      refine .inr ⟨hnot, _, hsplice _ hb, ?_⟩
      rw [maybe_marker_eq, maybe_marker_eq]
      simp only [counted, if_true, List.flatMap_nil, List.append_nil]

/-- All fragments of a line. -/
theorem printed_run (h : Printed l done l') {frags : List (List Char)} (hstr : ∀ str ∈ frags, NUL ∉ str) :
    ∃ l'', l'.run (frags.map .print) = some l'' ∧ Printed l (done ++ frags.flatten) l'' := by
  induction frags generalizing done l' with
  | nil => exact ⟨l', rfl, by rwa [List.flatten_nil, List.append_nil]⟩
  | cons str frags ih =>
    obtain ⟨l₁, h₁, hprinted⟩ := printed_print h (hstr str List.mem_cons_self)
    obtain ⟨l₂, h₂, hprinted'⟩ := ih hprinted fun s hs => hstr s (List.mem_cons_of_mem _ hs)
    refine ⟨l₂, ?_, by rwa [List.flatten_cons, ← List.append_assoc]⟩
    unfold Logger.run
    rw [List.map_cons, List.foldlM_cons]
    exact (congrArg (· >>= _) h₁).trans h₂

/-- The state between two lines. -/
def between (out prev : List Char) (r : Nat) : Logger := ⟨out, false, prev, 0, r⟩

/-- The end of a line. -/
theorem newline_printed {out prev : List Char} {r : Nat} (h : Printed (between out prev r) line l') (hne : line ≠ []) (hnul : NUL ∉ line) :
    l'.newline = if line <+: prev then between out line ((r + 1) % 2 ^ 64)
      else between (out ++ (counted r ++ [Item.shown line]).flatMap item_text) line 0 := by
  have hstr : c_str line = line := by
    unfold c_str
    rw [List.takeWhile_eq_self_iff]
    intro c hc
    exact decide_eq_true fun h => hnul (h ▸ hc)
  have htake : ∀ b : List Char, line <+: b → b.takeD line.length NUL = line := by
    intro b hb
    rw [List.takeD_eq_take _ hb.length_le]
    exact (List.prefix_iff_eq_take.1 hb).symm
  rcases h with ⟨hpre, rfl⟩ | ⟨hpre, b, hb, rfl⟩
  · change line <+: prev at hpre
    rw [if_pos hpre]
    unfold Logger.newline Logger.end_line between
    dsimp only
    have hfull : (!line.isEmpty) = true := by
      cases line with
      | nil => exact absurd rfl hne
      | cons => rfl
    rw [htake _ hpre, if_neg Bool.false_ne_true, if_pos hfull]
  · change ¬ line <+: prev at hpre
    rw [if_neg hpre, maybe_marker_eq]
    unfold Logger.newline Logger.end_line between
    dsimp only
    rw [htake _ hb, if_pos rfl, maybe_marker_eq]
    dsimp only
    rw [hstr, List.flatMap_append]
    simp only [counted, if_true, List.flatMap_nil, List.append_nil, List.flatMap_cons, List.append_assoc]
    rfl

theorem newline_ends (l : Logger) : l.newline.dirty = false ∧ l.newline.bufpos = 0 := by
  unfold Logger.newline Logger.end_line
  split
  · rw [maybe_marker_eq]
    exact ⟨rfl, rfl⟩
  · split <;> exact ⟨rfl, rfl⟩

/-- A line that ends with `flush` may as well end before. -/
theorem flush_newline (l : Logger) : l.newline.flush = l.flush := by
  have hagain : { l.newline.newline with buf := [] } = { l.newline with buf := [] } := by
    obtain ⟨hdirty, hpos⟩ := newline_ends l
    generalize l.newline = m at hdirty hpos
    obtain ⟨out, dirty, buf, bufpos, repeated⟩ := m
    cases hdirty
    cases hpos
    rfl
  unfold Logger.flush
  rw [hagain]

theorem run_append (l : Logger) (cs cs' : List Logger.Call) : l.run (cs ++ cs') = (l.run cs).bind fun l => l.run cs' := List.foldlM_append

theorem run_log_calls (frags : List (List Char)) : l.run (log_calls (frags :: lines)) = (l.run (frags.map .print)).bind fun l => l.newline.run (log_calls lines) := by
  cases lines with
  | nil =>
    have hflush : log_calls [frags] = frags.map .print ++ [.flush] := rfl
    rw [hflush, run_append]
    congr 1
    funext l
    exact congrArg some (flush_newline l).symm
  | cons line lines => exact run_append l (frags.map .print) (.newline :: log_calls (line :: lines))

/-- The lines are compressed. -/
theorem run_lines {out prev : List Char} {r : Nat} (hlines : ∀ frags ∈ lines, frags.flatten ≠ [] ∧ NUL ∉ frags.flatten) :
    (between out prev r).run (log_calls lines) =
      some (between (out ++ (compress Repeating (2 ^ 64) r prev (lines.map List.flatten)).flatMap item_text) [] 0) := by
  induction lines generalizing out prev r with
  | nil =>
    rw [List.map_nil, compress]
    exact congrArg some (maybe_marker_eq _)
  | cons frags lines ih =>
    obtain ⟨hne, hnul⟩ := hlines frags List.mem_cons_self
    have hstart : Printed (between out prev r) [] (between out prev r) := .inl ⟨List.nil_prefix, rfl⟩
    obtain ⟨l', hrun, hprinted⟩ := printed_run hstart fun str hstr hmem => hnul (List.mem_flatten_of_mem hstr hmem)
    rw [run_log_calls, hrun, Option.bind_some, newline_printed hprinted hne hnul, List.nil_append, List.map_cons]
    have hrest : ∀ frags ∈ lines, frags.flatten ≠ [] ∧ NUL ∉ frags.flatten := fun frags hfrags => hlines frags (List.mem_cons_of_mem _ hfrags)
    by_cases hpre : frags.flatten <+: prev
    · rw [if_pos hpre, compress_covered (R := Repeating) hpre]
      exact ih hrest
    · have hitems := List.append_cons (counted r) (Item.shown frags.flatten)
        (compress Repeating (2 ^ 64) 0 frags.flatten (lines.map List.flatten))
      rw [if_neg hpre, compress_shown (R := Repeating) hpre, ih hrest, hitems]
      simp only [List.flatMap_append, List.append_assoc]

end Calls

/-! ## Any calls -/

/-- The cursor is inside the buffer, and no NUL is printed. -/
structure Logger.Sound (l : Logger) : Prop where
  bufpos : l.bufpos ≤ l.buf.length
  out : NUL ∉ l.out

section Sound
variable {l : Logger}

/-- A marker is made of its two texts and of digits. -/
theorem not_in_marker {c : Char} (hfront : c ∉ "<repeated ".toList) (hback : c ∉ " times>".toList) (hdigit : digitValue c = none) (n : Nat) :
    c ∉ Logger.marker n := by
  intro h
  rcases List.mem_append.1 h with h | h
  · exact hfront h
  rcases List.mem_append.1 h with h | h
  · obtain ⟨d, -, hd⟩ := toDigits_value (by decide) (by decide) h
    rw [hdigit] at hd
    cases hd
  · exact hback h

theorem nul_not_in_items (r : Nat) : NUL ∉ (counted r).flatMap item_text := by
  unfold counted
  split
  · exact List.not_mem_nil
  · intro h
    rw [List.flatMap_cons, List.flatMap_nil, List.append_nil] at h
    rcases List.mem_append.1 h with h | h
    · exact not_in_marker (by decide +kernel) (by decide +kernel) (by decide) r h
    · exact absurd h (by decide)

theorem nul_not_in_c_str (s : List Char) : NUL ∉ c_str s := by
  intro h
  have hne := List.mem_takeWhile_imp h
  exact of_decide_eq_true hne rfl

theorem sound_new : Logger.new.Sound := ⟨Nat.le_refl _, List.not_mem_nil⟩

theorem sound_marker (h : l.Sound) : l.maybe_marker.Sound := by
  rw [maybe_marker_eq]
  refine ⟨h.bufpos, fun hmem => ?_⟩
  rcases List.mem_append.1 hmem with hmem | hmem
  · exact h.out hmem
  · exact nul_not_in_items _ hmem

theorem sound_newline (h : l.Sound) : l.newline.Sound := by
  have hmarker := (sound_marker h).out
  rw [maybe_marker_eq] at hmarker
  unfold Logger.newline Logger.end_line
  split
  · rw [maybe_marker_eq]
    refine ⟨Nat.zero_le _, fun hmem => ?_⟩
    rcases List.mem_append.1 hmem with hmem | hmem
    · exact hmarker hmem
    · rcases List.mem_append.1 hmem with hmem | hmem
      · exact nul_not_in_c_str _ hmem
      · exact absurd hmem (by decide)
  · split
    · exact ⟨Nat.zero_le _, h.out⟩
    · exact ⟨Nat.zero_le _, h.out⟩

/-- A call does not fail. -/
theorem sound_call (h : l.Sound) (c : Logger.Call) : ∃ l', l.call c = some l' ∧ l'.Sound := by
  cases c with
  | print str =>
    unfold Logger.call Logger.print
    dsimp only
    rw [if_pos h.bufpos]
    split
    · rename_i hfits
      have hle := h.bufpos
      exact ⟨_, rfl, by dsimp only; omega, h.out⟩
    · refine ⟨_, rfl, ?_, (sound_marker (l := { l with dirty := true }) ⟨h.bufpos, h.out⟩).out⟩
      rw [maybe_marker_eq]
      dsimp only
      rw [splice, List.length_append, List.length_append, List.length_append, List.length_take, List.length_replicate, List.length_drop]
      omega
  | newline => exact ⟨_, rfl, sound_newline h⟩
  | flush =>
    refine ⟨_, rfl, sound_marker ⟨?_, (sound_newline h).out⟩⟩
    rw [(newline_ends l).2]
    exact Nat.zero_le _

theorem sound_run (h : l.Sound) (cs : List Logger.Call) : ∃ l', l.run cs = some l' ∧ l'.Sound := by
  induction cs generalizing l with
  | nil => exact ⟨l, rfl, h⟩
  | cons c cs ih =>
    obtain ⟨l₁, h₁, hsound⟩ := sound_call h c
    obtain ⟨l₂, h₂, hsound'⟩ := ih hsound
    refine ⟨l₂, ?_, hsound'⟩
    unfold Logger.run
    rw [List.foldlM_cons]
    exact (congrArg (· >>= _) h₁).trans h₂

end Sound

/-! ## What is read -/

/-- A line of text that is not a marker. -/
structure PlainLine (line : List Char) : Prop where
  newline : '\n' ∉ line
  nul : NUL ∉ line
  marked : marked line = none

/-- Lines that come back: all are plain, none is a proper part of the line before it from its start on, and none is
repeated too often for the counter. -/
structure Compressible (lines : List (List Char)) : Prop where
  plain : ∀ line ∈ lines, PlainLine line
  chain : lines.IsChain fun prev line => line <+: prev → line = prev
  runs : ∀ line, ¬ List.replicate (2 ^ 64 + 1) line <:+: lines

section Reading
variable {items : List (Item (List Char))} {line text : List Char} {lines : List (List Char)}

theorem mem_splitOn {a : Char} {s : List Char} : ∀ {x : List Char}, x ∈ s.splitOn a → a ∉ x ∧ ∀ c ∈ x, c ∈ s := by
  induction s with
  | nil =>
    intro x hx
    rw [List.splitOn_nil] at hx
    cases List.mem_singleton.1 hx
    exact ⟨List.not_mem_nil, fun c hc => absurd hc List.not_mem_nil⟩
  | cons b s ih =>
    intro x hx
    rw [List.splitOn_cons_eq_if_modifyHead] at hx
    split at hx
    · rcases List.mem_cons.1 hx with rfl | hx
      · exact ⟨List.not_mem_nil, fun c hc => absurd hc List.not_mem_nil⟩
      · exact ⟨(ih hx).1, fun c hc => List.mem_cons_of_mem _ ((ih hx).2 c hc)⟩
    · rename_i hb
      rcases hsplit : s.splitOn a with _ | ⟨y, ys⟩
      · exact absurd hsplit (List.splitOn_ne_nil a s)
      · rw [hsplit] at hx ih
        rw [List.modifyHead_cons] at hx
        rcases List.mem_cons.1 hx with rfl | hx
        · obtain ⟨hy, hmem⟩ := ih List.mem_cons_self
          refine ⟨fun ha => ?_, fun c hc => ?_⟩
          · rcases List.mem_cons.1 ha with rfl | ha
            · exact hb (BEq.refl _)
            · exact hy ha
          · rcases List.mem_cons.1 hc with rfl | hc
            · exact List.mem_cons_self
            · exact List.mem_cons_of_mem _ (hmem c hc)
        · obtain ⟨hy, hmem⟩ := ih (List.mem_cons_of_mem _ hx)
          exact ⟨hy, fun c hc => List.mem_cons_of_mem _ (hmem c hc)⟩

/-- Whatever is read, the lines are plain. -/
theorem expanded_plain (htext : NUL ∉ text) (h : line ∈ expanded text) : PlainLine line := by
  rcases expand_mem h with rfl | h
  · exact ⟨List.not_mem_nil, List.not_mem_nil, rfl⟩
  · obtain ⟨line', hmem, hitem⟩ := List.mem_map.1 h
    unfold item at hitem
    split at hitem
    · cases hitem
    · rename_i hmarked
      cases hitem
      obtain ⟨hnew, hsub⟩ := mem_splitOn (List.dropLast_subset _ hmem)
      exact ⟨hnew, fun hnul => htext (hsub _ hnul), hmarked⟩

theorem marked_marker (n : Nat) : marked (Logger.marker n) = some n := by
  have hstops : Stops " times>".toList := by
    intro c hc
    cases hc
    decide
  unfold marked Logger.marker
  rw [after_append, Option.bind_some, leading_toDigits n hstops, Option.bind_some]
  exact if_pos rfl

theorem text_lines_items (h : ∀ i ∈ items, '\n' ∉ item_line i) : text_lines (items.flatMap item_text) = items.map item_line := by
  unfold text_lines
  have hsplit : (items.flatMap item_text).splitOn '\n' = items.map item_line ++ [[]] := by
    induction items with
    | nil => rfl
    | cons i items ih =>
      have hrest := ih fun j hj => h j (List.mem_cons_of_mem _ hj)
      rw [List.flatMap_cons, item_text, List.append_assoc, List.singleton_append,
        List.splitOn_append_cons_self_of_not_mem (h i List.mem_cons_self), hrest, List.map_cons, List.cons_append]
  rw [hsplit, List.dropLast_concat]

/-- Items of plain lines are read back. -/
theorem expanded_items (h : ∀ line, .shown line ∈ items → PlainLine line) : expanded (items.flatMap item_text) = expand [] items := by
  have hnew : ∀ i ∈ items, '\n' ∉ item_line i := by
    intro i hi
    cases i with
    | shown line => exact (h line hi).newline
    | again n => exact not_in_marker (by decide +kernel) (by decide +kernel) (by decide) n
  have hitems : items.map (fun i => item (item_line i)) = items := by
    rw [List.map_congr_left (g := id), List.map_id]
    intro i hi
    cases i with
    | shown line =>
      unfold item
      rw [item_line, (h line hi).marked]
      rfl
    | again n =>
      unfold item
      rw [item_line, marked_marker]
      rfl
  unfold expanded
  rw [text_lines_items hnew, List.map_map]
  exact congrArg (expand []) hitems

theorem expand_lines_iff {N : Nat} (hN : 0 < N) (hne : ∀ line ∈ lines, line ≠ []) : expand [] (compress Repeating N 0 [] lines) = lines ↔
    (lines.IsChain fun prev line => line <+: prev → line = prev) ∧ ∀ line, ¬ List.replicate (N + 1) line <:+: lines := by
  have hiff := expand_compress_iff (R := Repeating) (N := N) (r := 0) (a := []) (l := lines) List.prefix_refl hN
  rw [List.replicate_zero, List.nil_append] at hiff
  rw [hiff]
  cases lines with
  | nil =>
    refine iff_of_true ⟨.singleton _, fun x h => ?_⟩ ⟨.nil, fun x h => ?_⟩
    · have hlen := h.length_le
      simp only [List.length_replicate, List.append_nil] at hlen
      omega
    · have hlen := h.length_le
      simp only [List.length_replicate, List.length_nil] at hlen
      omega
  | cons line lines =>
    have hline : line ≠ [] := hne line List.mem_cons_self
    have hrun : ∀ x, List.replicate (N + 1) x <:+: List.replicate (0 + 1) [] ++ line :: lines ↔
        List.replicate (N + 1) x <:+: line :: lines := fun x => run_behind (by omega) hline
    rw [List.isChain_cons_cons]
    constructor
    · exact fun h => ⟨h.1.2, fun x hx => h.2 x ((hrun x).2 hx)⟩
    · exact fun h => ⟨⟨List.prefix_nil.1, h.1⟩, fun x hx => h.2 x ((hrun x).1 hx)⟩

end Reading

/-- The log is lossless if no line is a proper part of the one before it, for any fragments of the lines. -/
theorem log_lossless_iff (lines : List (List (List Char))) (hne : ∀ frags ∈ lines, frags.flatten ≠ []) : ∃ text, logged lines = some text ∧
    (expanded text = lines.map List.flatten ↔ Compressible (lines.map List.flatten)) := by
  obtain ⟨l, hrun, hsound⟩ := sound_run sound_new (log_calls lines)
  refine ⟨l.out, by rw [logged, hrun]; rfl, ?_⟩
  have htext : (∀ line ∈ lines.map List.flatten, PlainLine line) → expanded l.out = expand [] (compress Repeating (2 ^ 64) 0 [] (lines.map List.flatten)) := by
    intro hplain
    have hlines : ∀ frags ∈ lines, frags.flatten ≠ [] ∧ NUL ∉ frags.flatten :=
      fun frags hfrags => ⟨hne frags hfrags, (hplain _ (List.mem_map_of_mem hfrags)).nul⟩
    have hcompressed : Logger.new.run (log_calls lines) =
        some (between ((compress Repeating (2 ^ 64) 0 [] (lines.map List.flatten)).flatMap item_text) [] 0) := run_lines hlines
    rw [hrun] at hcompressed
    rw [Option.some.inj hcompressed]
    exact expanded_items fun line hmem => hplain line (compress_mem hmem)
  have hne' : ∀ line ∈ lines.map List.flatten, line ≠ [] := by
    intro line hline
    obtain ⟨frags, hfrags, rfl⟩ := List.mem_map.1 hline
    exact hne frags hfrags
  constructor
  · intro heq
    have hplain : ∀ line ∈ lines.map List.flatten, PlainLine line := by
      intro line hline
      rw [← heq] at hline
      exact expanded_plain hsound.out hline
    rw [htext hplain] at heq
    obtain ⟨hchain, hruns⟩ := (expand_lines_iff (by decide) hne').1 heq
    exact ⟨hplain, hchain, hruns⟩
  · intro h
    rw [htext h.plain]
    exact (expand_lines_iff (by decide) hne').2 ⟨h.chain, h.runs⟩

theorem log_lossless_iff_fragments : ∃ text, logged [["a".toList, "b".toList], [[], "ab".toList]] = some text ∧
    (expanded text = ["ab".toList, "ab".toList] ↔ Compressible ["ab".toList, "ab".toList]) :=
  log_lossless_iff [["a".toList, "b".toList], [[], "ab".toList]] (by decide +kernel)

/-- The second line starts like the first one, and is shown as a copy of it. -/
theorem proper_part_lost : ¬ ∀ lines : List (List (List Char)), (∀ frags ∈ lines, frags.flatten ≠ []) →
    ∃ text, logged lines = some text ∧ expanded text = lines.map List.flatten := by
  intro hall
  obtain ⟨text, htext, heq⟩ := hall [["ab".toList], ["a".toList]] (by decide +kernel)
  have hlogged : logged [["ab".toList], ["a".toList]] = some "ab\n<repeated 1 times>\n".toList := by decide +kernel
  rw [hlogged] at htext
  cases htext
  exact absurd heq (by decide +kernel)

end nexusrv
