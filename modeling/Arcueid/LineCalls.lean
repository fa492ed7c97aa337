import Arcueid.LineNumbers
import Arcueid.LineRecords
import Arcueid.TruncatedSource

/-! Calls of `arc_sread`, one after the other, on one port with one line number table. -/

namespace Arcueid.Reader.Lined

open Utf

variable {F : Type}

section Strings

variable {α β : Type} {x : LineM α} {f : α → LineM β}

def KeepsPort (x : LineM α) : Prop := ∀ s, (x s).2.port = s.port

theorem KeepsPort.bind (hx : KeepsPort x) (hf : ∀ a, KeepsPort (f a)) : KeepsPort (x >>= f) := by
  intro s
  have hport := hx s
  cases hr : x s with
  | mk r s' =>
    rw [hr] at hport
    cases r with
    | ok a =>
      rw [bind_ok hr, hf a s']
      exact hport
    | error stop =>
      rw [bind_error hr]
      exact hport

theorem onInstring_keepsPort (rest : List Nat) (x : LineM α) : KeepsPort (onInstring rest x) := by
  intro s
  rw [onInstring]
  cases x { s with port := instring rest } with
  | mk r s' =>
    cases r with
    | ok a => rfl
    | error stop => rfl

theorem codestring_keepsPort {read : List Nat → LineM (Located F × Port)} (hread : ∀ rest, KeepsPort (read rest))
    (n : Nat) (s : List Nat) : KeepsPort (codestring read n s) := by
  induction n generalizing s with
  | zero => exact fun _ => rfl
  | succ n ih =>
    rw [codestring]
    cases atpos s with
    | none => exact fun _ => rfl
    | some i => exact (hread _).bind fun r => (ih _).bind fun cs _ => rfl

theorem atstringReader_keepsPort (flo : Flonums F) (n : Nat) (body : List Nat) :
    KeepsPort (atstringReader flo n body) := by
  cases n with
  | zero => exact fun _ => rfl
  | succ n =>
    rw [atstringReader, readAtstring]
    split
    · exact (codestring_keepsPort (fun rest => onInstring_keepsPort rest _) _ body).bind fun cs _ => rfl
    · exact fun _ => rfl

theorem lined_stringsApart (c : Settings F) (s : List Nat) (src : Source) (hsrc : src.declared = (c.atstrings = true)) :
    StringsApart src (c.lined s) := by
  have hreader : ∀ f, (c.lined s).atstrings = some f → c.atstrings = true ∧ f = atstringReader c.flo s.length := by
    intro f hf
    rw [Settings.lined] at hf
    split at hf
    · exact ⟨‹_›, (Option.some.inj hf).symm⟩
    · cases hf
  refine ⟨fun f hf => ?_, fun f hf body t => ?_, fun f hf body hat t => ?_⟩
  · rw [hsrc]
    exact (hreader f hf).1
  · rw [(hreader f hf).2]
    exact atstringReader_keepsPort c.flo s.length body t
  · rw [(hreader f hf).2]
    cases s.length with
    | zero => exact ⟨rfl, fun d hd => by cases hd⟩
    | succ n =>
      have hrun : atstringReader c.flo (n + 1) body t = (.ok (.atom (.string (unescapeAts body))), t) := by
        rw [atstringReader, readAtstring, hat]
        rfl
      rw [hrun]
      refine ⟨rfl, fun d hd => ?_⟩
      cases hd
      rfl

end Strings

section Calls

variable {c : Settings F} {text : List Nat}

/-- A call, from one state to another, that returns or raises. -/
structure Call (F : Type) where
  eof : Datum F
  before : Lines
  outcome : Except Stop (Located F)
  after : Lines

/-- Calls with the given steps and values for the end of the file. -/
def calls (e : LineEnv F) : List (Nat × Datum F) → Lines → List (Call F)
  | [], _ => []
  | (n, eof) :: more, s =>
    let r := sread e n eof s
    ⟨eof, s, r.1, r.2⟩ :: calls e more r.2

/-- The call reads no newline that is passed over, and no string with an expression in
it where `atstrings` is declared. -/
def Call.Plain (c : Settings F) (k : Call F) : Prop :=
  ∀ w u, At k.before.port (w ++ u) → At k.after.port u → missed (.between false) w = 0 ∧
    ¬ Interpolated ⟨w ++ u, k.before.lineno, c.atstrings = true⟩ u

/-- The number of the line that a datum begins in. -/
def Numbered (text : List Nat) (m : Mark) : Prop :=
  ∃ b, text = b ++ m.opening ∧ m.line = 1 + newlines b

/-- In front of the rest of the text, at its line. -/
def InFront (text : List Nat) (s : Lines) : Prop :=
  ∃ b u, text = b ++ u ∧ At s.port u ∧ s.lineno = 1 + newlines b

theorem Right.line {src : Source} {u w : List Nat} {m : Mark} (h : Right src u m) (htext : src.text = w ++ u)
    (hw : missed (.between false) w = 0) :
    ∃ b, src.text = b ++ m.opening ∧ m.line = src.lineno + newlines b := by
  obtain ⟨⟨v, hv⟩, b, hb, hline⟩ := h
  have hsplit : w = b ++ v := by
    rw [htext, ← hv, ← List.append_assoc] at hb
    exact List.append_cancel_right hb
  have hmissed : missed (.between false) b = 0 := by
    rw [hsplit, missed_append] at hw
    omega
  exact ⟨b, hb, by omega⟩

theorem Stopped.inFront {b u v : List Nat} {s s' : Lines} (htext : text = b ++ u) (hport : At s.port u)
    (hline : s.lineno = 1 + newlines b) {d : Prop} (h : Stopped ⟨u, s.lineno, d⟩ v s')
    (hplain : ∀ w u', At s.port (w ++ u') → At s'.port u' → missed (.between false) w = 0 ∧
      ¬ Interpolated ⟨w ++ u', s.lineno, d⟩ u') :
    InFront text s' ∧ ¬ Interpolated ⟨u, s.lineno, d⟩ v ∧ ∃ w, u = w ++ v ∧ missed (.between false) w = 0 := by
  obtain ⟨hport', L, w, hw, -, hcount⟩ := h
  have hw : u = w ++ v := hw
  subst hw
  obtain ⟨hmissed, hnot⟩ := hplain w v hport hport'
  have hcount := hcount.resolve_left hnot
  have hcount : s'.lineno + missed (.between false) w = s.lineno + newlines w := hcount
  refine ⟨⟨b ++ w, v, by rw [htext, List.append_assoc], hport', ?_⟩, hnot, w, rfl, hmissed⟩
  rw [newlines_append]
  omega

/-- A plain call goes on at the right line and records the right lines. -/
theorem call_plain {s : Lines} (h : InFront text s) (n : Nat) (eof : Datum F)
    (hplain : Call.Plain c ⟨eof, s, (sread (c.lined text) n eof s).1, (sread (c.lined text) n eof s).2⟩) :
    InFront text (sread (c.lined text) n eof s).2 ∧
      ∀ d, (sread (c.lined text) n eof s).1 = .ok d → ∀ m ∈ d.marks, Numbered text m := by
  obtain ⟨b, u, htext, hport, hline⟩ := h
  have hfaces : Faces ⟨u, s.lineno, c.atstrings = true⟩ (.between false) u s := by
    obtain ⟨p, k⟩ := s
    have hstart : Position ⟨u, k, c.atstrings = true⟩ u (.between false) k := ⟨[], rfl, rfl, .inr rfl⟩
    cases hport with
    | clean => exact .clean hstart
    | pushed r cs => exact .pushed hstart (Follows.refl _ r)
  have hreads := (readersRead (lined_stringsApart c text _ rfl) eof n).sread false u s hfaces
  rw [Reads] at hreads
  cases hr : sread (c.lined text) n eof s with
  | mk r s' =>
    rw [hr] at hreads hplain
    cases r with
    | error stop =>
      obtain ⟨v, -, hstop⟩ := hreads
      exact ⟨(hstop.inFront htext hport hline hplain).1, fun d hd => by cases hd⟩
    | ok d =>
      obtain ⟨v, -, hrests, hmarks⟩ := hreads
      obtain ⟨hfront, hnot, w, hw, hmissed⟩ := hrests.stopped.inFront htext hport hline hplain
      refine ⟨hfront, fun d' hd m hm => ?_⟩
      cases hd
      have hright := hmarks.resolve_left hnot d List.mem_cons_self m hm
      obtain ⟨b', hb', hm'⟩ := hright.line hw hmissed
      refine ⟨b ++ b', ?_, ?_⟩
      · rw [htext, List.append_assoc]
        exact congrArg (b ++ ·) hb'
      · rw [newlines_append, hm', hline, Nat.add_assoc]

theorem calls_plain {s : Lines} (h : InFront text s) (script : List (Nat × Datum F))
    (hplain : ∀ k ∈ calls (c.lined text) script s, k.Plain c) :
    ∀ k ∈ calls (c.lined text) script s, ∀ d, k.outcome = .ok d → ∀ m ∈ d.marks, Numbered text m := by
  induction script generalizing s with
  | nil => exact fun k hk => by cases hk
  | cons call more ih =>
    obtain ⟨n, eof⟩ := call
    obtain ⟨hfront, hmarks⟩ := call_plain h n eof (hplain _ List.mem_cons_self)
    intro k hk
    rcases List.mem_cons.mp hk with rfl | hk
    · exact hmarks
    · exact ih hfront (fun k hk => hplain k (List.mem_cons_of_mem _ hk)) k hk

theorem calls_recorded (c : Settings F) (text : List Nat) (script : List (Nat × Datum F)) (s : Lines) :
    ∀ k ∈ calls (c.lined text) script s, ∀ d, k.outcome = .ok d → Recorded k.eof d := by
  induction script generalizing s with
  | nil => exact fun k hk => by cases hk
  | cons call more ih =>
    obtain ⟨n, eof⟩ := call
    intro k hk
    rcases List.mem_cons.mp hk with rfl | hk
    · intro d hd
      have hstrings : StringsRecordable (c.lined text) eof := by
        intro f hf body
        rw [Settings.lined] at hf
        split at hf
        · cases hf
          exact atstringReader_gives c.flo text.length body eof
        · cases hf
      exact (readersRecord hstrings n).sread s d _ (Prod.ext hd rfl)
    · exact ih _ k hk

/-- In a run of plain calls each cons that is read is recorded, with the number of the
line that its opening character is in. -/
theorem lines_of_plain (c : Settings F) (text : List Nat) (script : List (Nat × Datum F))
    (hplain : ∀ k ∈ calls (c.lined text) script ⟨instring text, 1⟩, k.Plain c) :
    ∀ k ∈ calls (c.lined text) script ⟨instring text, 1⟩, ∀ d, k.outcome = .ok d →
      Recorded k.eof d ∧ ∀ m ∈ d.marks, Numbered text m := by
  intro k hk d hd
  have hfront : InFront text ⟨instring text, 1⟩ := ⟨[], text, rfl, .clean text, rfl⟩
  exact ⟨calls_recorded c text script _ k hk d hd, calls_plain hfront script hplain k hk d hd⟩

theorem lines_of_plain_nested :
    (calls (plainSettings.lined (runes "(a\n(b))")) [(8, .nil)]
      ⟨instring (runes "(a\n(b))"), 1⟩).length = 1 ∧
    ∀ k ∈ calls (plainSettings.lined (runes "(a\n(b))")) [(8, .nil)]
      ⟨instring (runes "(a\n(b))"), 1⟩, ∀ d, k.outcome = .ok d →
        Recorded k.eof d ∧ ∀ m ∈ d.marks, Numbered (runes "(a\n(b))") m := by
  refine ⟨rfl, lines_of_plain plainSettings (runes "(a\n(b))") [(8, .nil)] ?_⟩
  intro k hk w u hbefore hafter
  have hport : (sread (plainSettings.lined (runes "(a\n(b))")) 8 .nil ⟨instring (runes "(a\n(b))"), 1⟩).2.port =
      instring [] := by decide +kernel
  generalize hr : sread (plainSettings.lined (runes "(a\n(b))")) 8 .nil ⟨instring (runes "(a\n(b))"), 1⟩ = r
    at hport
  have hk : k = ⟨.nil, ⟨instring (runes "(a\n(b))"), 1⟩, r.1, r.2⟩ := by
    rw [← hr]
    exact List.mem_singleton.mp hk
  rw [hk] at hbefore hafter
  have hafter : At r.2.port u := hafter
  rw [hport] at hafter
  have hu : u = [] := hafter.unique (.clean [])
  have hw : w ++ u = runes "(a\n(b))" := hbefore.unique (.clean _)
  rw [hu, List.append_nil] at hw
  rw [hw]
  exact ⟨by decide +kernel, fun h => Bool.noConfusion h.1⟩

/-- The newline that ends a regular expression is not counted. -/
theorem regexp_newline : ¬ ∀ (c : Settings Unit) (text : List Nat) (script : List (Nat × Datum Unit)),
    ∀ k ∈ calls (c.lined text) script ⟨instring text, 1⟩, ∀ d, k.outcome = .ok d →
      ∀ m ∈ d.marks, Numbered text m := by
  intro hall
  have hcalls : some (.cons (some ⟨1, runes "(a)"⟩) (.atom (.symbol (runes "a"))) (.atom .nil)) ∈
      (calls (plainSettings.lined (runes "r/x/\n(a)")) [(8, .nil), (8, .nil)]
        ⟨instring (runes "r/x/\n(a)"), 1⟩).map fun k => k.outcome.toOption := by decide +kernel
  obtain ⟨k, hk, hout⟩ := List.mem_map.mp hcalls
  have hok : k.outcome = .ok (.cons (some ⟨1, runes "(a)"⟩) (.atom (.symbol (runes "a"))) (.atom .nil)) := by
    cases h : k.outcome with
    | error stop =>
      rw [h] at hout
      cases hout
    | ok d =>
      rw [h] at hout
      exact congrArg Except.ok (Option.some.inj hout)
  obtain ⟨b, hb, hline⟩ := hall _ _ _ k hk _ hok ⟨1, runes "(a)"⟩ List.mem_cons_self
  have hprefix : runes "r/x/\n" = b :=
    List.append_cancel_right (show runes "r/x/\n" ++ runes "(a)" = b ++ runes "(a)" from hb)
  rw [← hprefix] at hline
  exact absurd hline (by decide)

end Calls

end Arcueid.Reader.Lined
