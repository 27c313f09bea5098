import SslAutoref.Model.Arguments

/-!
# Which arguments name a stream

`ParseAddressAndPort` splits an argument at its first colon and leaves the rest to `atoi`
(`parse_exact`): it accepts every stream as the usage writes them, and every other argument
with something behind a colon. A command line that is written as the usage says gives the
streams it asks for (`arguments_round_trip`).
-/

namespace SslAutoref.Theorems

open Scanf

/-- An address without a colon, a colon, and a rest that is not empty. -/
structure Splits (arg address rest : List Char) : Prop where
  text : arg = address ++ ':' :: rest
  noColon : ':' ∉ address
  rest_ne_nil : rest ≠ []

/-- `address:port`, with an address, and a port of decimal digits that there is. -/
structure IsStream (arg address : List Char) (port : Int32) : Prop where
  address_ne_nil : address ≠ []
  digits : ∃ digits, Splits arg address digits ∧ (∀ c ∈ digits, c.isDigit = true) ∧
    port.toInt = digitsValue digits
  port_pos : 0 < port.toInt
  port_le : port.toInt ≤ 65535

/-- What is accepted has the address before the first colon and the number `atoi` reads
behind it, which for a stream is its port. Nothing else is accepted, or written to. -/
structure ParsesSplit (arg : Argument) (address : List Char) (port : Int32) : Prop where
  accepts : ∀ left rest, Splits arg.text left rest →
    parseAddressAndPort arg address port = (true, left, atoi rest)
  streams : ∀ left number, IsStream arg.text left number →
    parseAddressAndPort arg address port = (true, left, number)
  refuses : (¬ ∃ left rest, Splits arg.text left rest) →
    parseAddressAndPort arg address port = (false, address, port)

/-- The first colon is behind the address. -/
theorem Splits.strstrColon_eq {arg address rest : List Char} (h : Splits arg address rest) :
    strstrColon arg = some address.length := by
  have hnone : address.findIdx? (· == ':') = none := by
    rw [List.findIdx?_eq_none_iff]
    intro c hc
    have hne : c ≠ ':' := fun heq => h.noColon (heq ▸ hc)
    simpa using hne
  unfold strstrColon
  rw [h.text, List.findIdx?_append, hnone]
  simp [List.findIdx?_cons]

/-- Where there is a colon with something behind it, the argument splits. -/
theorem splits_of_strstrColon {arg : List Char} {split : Nat}
    (h : strstrColon arg = some split) (hlast : split + 1 ≠ arg.length) :
    Splits arg (arg.take split) (arg.drop (split + 1)) := by
  obtain ⟨hlt, hcolon, hbefore⟩ := List.findIdx?_eq_some_iff_getElem.mp h
  have hat : arg[split] = ':' := by simpa using hcolon
  refine ⟨?_, ?_, ?_⟩
  · rw [← hat, List.getElem_cons_drop, List.take_append_drop]
  · intro hmem
    obtain ⟨j, hj, heq⟩ := List.mem_take_iff_getElem.mp hmem
    exact hbefore j (by omega) (by simp [heq])
  · rw [Ne, List.drop_eq_nil_iff]
    omega

/-- An argument that splits is accepted. -/
theorem parse_of_splits {arg : Argument} {left rest : List Char} (h : Splits arg.text left rest)
    (address : List Char) (port : Int32) :
    parseAddressAndPort arg address port = (true, left, atoi rest) := by
  have hlen : (Int32.ofNat arg.text.length).toInt = arg.text.length :=
    Int32.toInt_ofNat_of_lt arg.length_lt
  have htext : arg.text.length = left.length + (rest.length + 1) := by
    rw [h.text, List.length_append, List.length_cons]
  have hrest := List.length_pos_iff.mpr h.rest_ne_nil
  -- the argument is not empty, and the colon is not its last byte
  have hnonempty : Int32.ofNat arg.text.length ≠ 0 := by
    intro hzero
    rw [hzero, htext] at hlen
    have hlen' : (0 : Int) = (left.length + (rest.length + 1) : Nat) := hlen
    omega
  have hlast : (left.length : Int) + 1 ≠ (Int32.ofNat arg.text.length).toInt := by
    rw [hlen]
    omega
  have haddress : arg.text.take left.length = left := by
    rw [h.text, List.take_left' rfl]
  have hnumber : arg.text.drop (left.length + 1) = rest := by
    rw [h.text, ← List.drop_drop, List.drop_left' rfl]
    rfl
  unfold parseAddressAndPort
  rw [h.strstrColon_eq]
  simp only [hnonempty, hlast, haddress, hnumber, or_self, if_false]

/-- An argument that does not split is not. -/
theorem parse_of_not_splits {arg : Argument} (h : ¬ ∃ left rest, Splits arg.text left rest)
    (address : List Char) (port : Int32) :
    parseAddressAndPort arg address port = (false, address, port) := by
  unfold parseAddressAndPort
  cases hsplit : strstrColon arg.text with
  | none => rfl
  | some split =>
    have hlast : split + 1 = arg.text.length := by
      by_contra hlast
      exact h ⟨_, _, splits_of_strstrColon hsplit hlast⟩
    have hlen : (Int32.ofNat arg.text.length).toInt = arg.text.length :=
      Int32.toInt_ofNat_of_lt arg.length_lt
    have hend : (split : Int) + 1 = (Int32.ofNat arg.text.length).toInt := by
      rw [hlen]
      omega
    simp [hend]

/-- The port of a stream is what `atoi` makes of its digits. -/
theorem IsStream.splits {arg address : List Char} {port : Int32} (h : IsStream arg address port) :
    ∃ digits, Splits arg address digits ∧ atoi digits = port := by
  obtain ⟨digits, hsplits, hdigits, hvalue⟩ := h.digits
  have hle := h.port_le
  refine ⟨digits, hsplits, ?_⟩
  rw [← Int32.toInt_inj, hvalue]
  exact toInt_atoi hsplits.rest_ne_nil hdigits (by omega)

/-- **One argument.** Whatever it is, and whatever was in the out parameters. -/
theorem parse_exact (arg : Argument) (address : List Char) (port : Int32) :
    ParsesSplit arg address port where
  accepts _ _ h := parse_of_splits h address port
  streams left number h := by
    obtain ⟨digits, hsplits, hport⟩ := h.splits
    rw [parse_of_splits hsplits, hport]
  refuses h := parse_of_not_splits h address port

/-- Exactly the streams are accepted. -/
structure AcceptsStreams (arg : Argument) (address : List Char) (port : Int32) : Prop where
  accepts : (parseAddressAndPort arg address port).1 = true ↔
    ∃ left number, IsStream arg.text left number
  streams : ∀ left number, IsStream arg.text left number →
    parseAddressAndPort arg address port = (true, left, number)
  refuses : (¬ ∃ left number, IsStream arg.text left number) →
    parseAddressAndPort arg address port = (false, address, port)

/-- An argument without an address, and with a word for a port. -/
def strayColon : Argument := ⟨[':', 'x'], Nat.le_of_ble_eq_true rfl⟩

/-- It is accepted, as port zero of nothing. -/
theorem accepts_a_stray_colon :
    ¬ ∀ (arg : Argument) (address : List Char) (port : Int32),
      AcceptsStreams arg address port := by
  intro h
  have haccepted : (parseAddressAndPort strayColon [] 0).1 = true := rfl
  obtain ⟨left, number, hstream⟩ := (h strayColon [] 0).accepts.mp haccepted
  -- the number of a stream is not zero
  obtain ⟨digits, hsplits, hport⟩ := hstream.splits
  have hparsed := parse_of_splits hsplits [] 0
  have hzero : number = 0 := by
    rw [← hport]
    exact (congrArg (fun result => result.2.2) hparsed).symm
  have hpos := hstream.port_pos
  rw [hzero] at hpos
  cases hpos

/-! ## All arguments -/

/-- The stream an argument adds, when it is not `-v`. -/
def streamOf (arg : Argument) : Option ProtobufLogger :=
  if arg.text = ['-', 'v'] then none
  else
    match parseAddressAndPort arg [] 0 with
    | (true, address, port) => some ⟨String.ofList address, port⟩
    | (false, _, _) => none

theorem loggers_readArgument (s : LoggerArguments) (arg : Argument) :
    (readArgument s arg).loggers = s.loggers ++ (streamOf arg).toList := by
  unfold readArgument streamOf
  split
  · simp
  · rcases parseAddressAndPort arg [] 0 with ⟨accepted, address, port⟩
    cases accepted with
    | false => simp
    | true => simp

/-- `main` adds one logger for every argument that splits, in their order, to the two it
always has. -/
theorem loggers_readArguments {args : List Argument} {s : LoggerArguments}
    (h : readArguments args = some s) : s.loggers = kDefaultLoggers ++ args.filterMap streamOf := by
  have hfold : ∀ (args : List Argument) (s : LoggerArguments),
      (args.foldl readArgument s).loggers = s.loggers ++ args.filterMap streamOf := by
    intro args
    induction args with
    | nil => simp
    | cons arg args ih =>
      intro s
      rw [List.foldl_cons, ih, loggers_readArgument, List.append_assoc]
      cases harg : streamOf arg <;> simp [harg]
  cases args with
  | nil =>
    obtain rfl := Option.some.inj h
    simp
  | cons first rest =>
    rw [readArguments] at h
    split at h
    · cases h
    · obtain rfl := Option.some.inj h
      exact hfold (first :: rest) _

/-! ## Command lines that are written out -/

/-- An argument as the usage describes it. -/
inductive Word
  | verbose
  | stream (logger : ProtobufLogger)

/-- How it is written. -/
def Word.text : Word → List Char
  | .verbose => ['-', 'v']
  | .stream logger => logger.ipAddress.toList ++ ':' :: decimal logger.portNumber.toInt.toNat

/-- It can be written: a stream has an address without a colon, and a port that there is. -/
def Word.Writable : Word → Prop
  | .verbose => True
  | .stream logger => logger.ipAddress.toList ≠ [] ∧ ':' ∉ logger.ipAddress.toList ∧
      0 < logger.portNumber.toInt ∧ logger.portNumber.toInt ≤ 65535

/-- The stream it asks for. -/
def Word.logger : Word → Option ProtobufLogger
  | .verbose => none
  | .stream logger => some logger

def Word.isVerbose : Word → Bool
  | .verbose => true
  | .stream _ => false

theorem isStream_text {logger : ProtobufLogger} (h : (Word.stream logger).Writable) :
    IsStream (Word.stream logger).text logger.ipAddress.toList logger.portNumber where
  address_ne_nil := h.1
  digits := by
    obtain ⟨-, hcolon, hpos, -⟩ := h
    refine ⟨decimal logger.portNumber.toInt.toNat, ⟨rfl, hcolon, decimal_ne_nil _⟩, ?_, ?_⟩
    · exact fun c hc => isDigit_of_mem_decimal hc
    · rw [digitsValue_decimal]
      exact (Int.toNat_of_nonneg hpos.le).symm
  port_pos := h.2.2.1
  port_le := h.2.2.2

/-- A stream has a colon, which no option has. -/
theorem text_stream_ne {logger : ProtobufLogger} {option : List Char} (h : ':' ∉ option) :
    (Word.stream logger).text ≠ option := by
  rintro rfl
  exact h (List.mem_append_right _ List.mem_cons_self)

/-- The loop does with a written word what it asks for. -/
theorem readArgument_text {arg : Argument} {word : Word} (hword : word.Writable)
    (harg : arg.text = word.text) (s : LoggerArguments) :
    readArgument s arg =
      { verbose := s.verbose || word.isVerbose
        loggers := s.loggers ++ word.logger.toList } := by
  unfold readArgument
  cases word with
  | verbose =>
    have hv : arg.text = ['-', 'v'] := harg
    simp [hv, Word.isVerbose, Word.logger]
  | stream logger =>
    have hne : arg.text ≠ ['-', 'v'] := by
      rw [harg]
      exact text_stream_ne (by simp)
    obtain ⟨digits, hsplits, hport⟩ := (isStream_text hword).splits
    rw [← harg] at hsplits
    rw [if_neg hne, parse_of_splits hsplits, hport]
    simp [Word.isVerbose, Word.logger]

/-- The loop over a written line, from what is there. -/
theorem foldl_readArgument_text {args : List Argument} {words : List Word}
    (hwords : ∀ word ∈ words, word.Writable) (hargs : args.map (·.text) = words.map Word.text)
    (s : LoggerArguments) :
    args.foldl readArgument s =
      { verbose := s.verbose || words.any Word.isVerbose
        loggers := s.loggers ++ words.filterMap Word.logger } := by
  induction words generalizing args s with
  | nil =>
    obtain rfl := List.map_eq_nil_iff.mp hargs
    simp
  | cons word words ih =>
    cases args with
    | nil => cases hargs
    | cons arg args =>
      obtain ⟨hfirst, hrest⟩ := List.cons.inj hargs
      rw [List.foldl_cons, readArgument_text (hwords word List.mem_cons_self) hfirst,
        ih (fun w hw => hwords w (List.mem_cons_of_mem _ hw)) hrest, List.any_cons,
        List.append_assoc, Bool.or_assoc]
      cases hlogger : word.logger <;> simp [hlogger]

/-- No written word asks for the usage. -/
theorem text_ne_usage (word : Word) : word.text ≠ ['-', 'h'] ∧ word.text ≠ ['-', '?'] := by
  cases word with
  | verbose => simp [Word.text]
  | stream logger => exact ⟨text_stream_ne (by simp), text_stream_ne (by simp)⟩

/-- **The command line round-trips.** Any flags and streams, written out in any order, give
exactly those streams, in their order behind the two that are always there, and the verbose
mode if it is asked for anywhere. -/
theorem arguments_round_trip (args : List Argument) (words : List Word)
    (hwords : ∀ word ∈ words, word.Writable)
    (hargs : args.map (·.text) = words.map Word.text) :
    readArguments args = some
      { verbose := words.any Word.isVerbose
        loggers := kDefaultLoggers ++ words.filterMap Word.logger } := by
  have hloop := foldl_readArgument_text hwords hargs { loggers := kDefaultLoggers }
  rw [Bool.false_or] at hloop
  cases args with
  | nil =>
    rw [List.foldl_nil] at hloop
    rw [readArguments, ← hloop]
  | cons first rest =>
    have hfirst : first.text ≠ ['-', 'h'] ∧ first.text ≠ ['-', '?'] := by
      cases words with
      | nil => cases hargs
      | cons word words =>
        have htext : first.text = word.text := (List.cons.inj hargs).1
        rw [htext]
        exact text_ne_usage word
    rw [readArguments, if_neg (not_or.mpr hfirst), hloop]

/-- The line `127.0.0.1:10004 -v`. -/
def autorefLine : List Word := [.stream ⟨"127.0.0.1", 10004⟩, .verbose]

def autorefArguments : List Argument :=
  [⟨"127.0.0.1:10004".toList, Nat.le_of_ble_eq_true rfl⟩, ⟨['-', 'v'], Nat.le_of_ble_eq_true rfl⟩]

theorem arguments_round_trip_autoref :
    readArguments autorefArguments = some
      { verbose := true, loggers := kDefaultLoggers ++ [⟨"127.0.0.1", 10004⟩] } :=
  arguments_round_trip autorefArguments autorefLine
    (by
      intro word hword
      rcases List.mem_cons.mp hword with rfl | hword
      · exact ⟨by decide, by decide, by decide, by decide⟩
      · obtain rfl := List.mem_singleton.mp hword
        trivial)
    rfl

end SslAutoref.Theorems
