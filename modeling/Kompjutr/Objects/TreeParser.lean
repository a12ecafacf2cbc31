/-
  Kompjutr.Objects.TreeParser

  `TreeParser` and `parseTreeStream` (`common/trees.ts`): the parser of a tree that comes in
  chunks, held to the structure of the tree that the chunks are parts of.
-/
import Kompjutr.Objects.Tree

namespace Kompjutr.Objects

open Bytes (toHex)
open Utf8 (textDecode)
open RawTree (IsTree IsEntry Part)
open Transducer (run run_of_ok run_of_error run_of_silent run_run)

/-- A `ParsedTreeEntry`. -/
structure ParsedTreeEntry where
  entry : TreeEntry
  nameBytes : List UInt8
  ordinal : Nat
  observedSize : Nat
  deriving DecidableEq

inductive ParserState where
  | mode | name | oid
  deriving DecidableEq

/-- The fields of a `TreeParser`.  Of the array `#oid` those octets are kept that were read. -/
structure TreeParser where
  mode : List UInt8
  name : List UInt8
  oid : List UInt8
  state : ParserState
  modeText : Text
  nameBytes : List UInt8
  entryCount : Nat
  observedSize : Nat
  finished : Bool
  deriving DecidableEq

def TreeParser.start : TreeParser where
  mode := []
  name := []
  oid := []
  state := .mode
  modeText := []
  nameBytes := []
  entryCount := 0
  observedSize := 0
  finished := false

/-- `ByteField.push`. -/
def pushField (limit : Option Nat) (label : String) (bytes : List UInt8) (byte : UInt8) :
    Except GitError (List UInt8) :=
  (reject (limit.any fun limit => bytes.length ≥ limit) (corrupt s!"tree {label} is too long")).map
    fun _ => bytes ++ [byte]

namespace TreeParser

/-- The octet that completes an id. -/
def emit (parser : TreeParser) (oid : List UInt8) :
    Except GitError (TreeParser × List ParsedTreeEntry) :=
  (decodeTreeName parser.nameBytes).map fun name =>
    ({ parser with
        oid
        entryCount := parser.entryCount + 1
        state := .mode
        modeText := []
        nameBytes := [] },
      [{ entry := { mode := parser.modeText, name, oid := toHex oid }
         nameBytes := parser.nameBytes
         ordinal := parser.entryCount
         observedSize := parser.observedSize }])

/-- What `push` does by its state. -/
def readByte (parser : TreeParser) (byte : UInt8) :
    Except GitError (TreeParser × List ParsedTreeEntry) :=
  match parser.state with
  | .mode =>
    if byte = 0x20 then
      .ok ({ parser with modeText := textDecode parser.mode, mode := [], state := .name }, [])
    else
      (pushField (some 6) "mode" parser.mode byte).map fun mode => ({ parser with mode }, [])
  | .name =>
    if byte = 0 then
      .ok ({ parser with nameBytes := parser.name, name := [], state := .oid, oid := [] }, [])
    else (pushField none "entry name" parser.name byte).map fun name => ({ parser with name }, [])
  | .oid =>
    let oid := parser.oid ++ [byte]
    if oid.length = 20 then parser.emit oid else .ok ({ parser with oid }, [])

/-- An octet of a chunk in `push`. -/
def pushByte (parser : TreeParser) (byte : UInt8) :
    Except GitError (TreeParser × List ParsedTreeEntry) :=
  let observedSize := parser.observedSize + 1
  if isSafeInteger observedSize then { parser with observedSize }.readByte byte
  else .error (corrupt "tree object size exceeds the safe integer range")

def push (parser : TreeParser) (chunk : List UInt8) :
    Except GitError (TreeParser × List ParsedTreeEntry) :=
  if parser.finished then .error { code := "Error", message := "tree parser is already finished" }
  else run pushByte parser chunk

def finish (parser : TreeParser) : Except GitError Unit :=
  if parser.finished then .error { code := "Error", message := "tree parser is already finished" }
  else reject (parser.state ≠ .mode || parser.mode.length ≠ 0) (corrupt "malformed tree entry")

end TreeParser

/-- `parseTreeStream`. -/
def parseTreeStream (chunks : List (List UInt8)) : Except GitError (List ParsedTreeEntry) :=
  (run TreeParser.push TreeParser.start chunks).bind fun last => last.1.finish.map fun _ => last.2

-- The entries of a tree

/-- What an entry is once its fields are decoded. -/
def decodeEntry (entry : RawEntry) : Except GitError TreeEntry :=
  (decodeTreeName entry.name).map fun name =>
    { mode := textDecode entry.mode, name, oid := toHex entry.oid }

/-- What the parser yields for entries behind others. -/
def parsedFrom (ordinal size : Nat) : List RawEntry → Except GitError (List ParsedTreeEntry)
  | [] => .ok []
  | raw :: entries =>
    (decodeEntry raw).bind fun entry =>
      (parsedFrom (ordinal + 1) (size + (RawTree.bytes raw).length) entries).map fun more =>
        { entry, nameBytes := raw.name, ordinal
          observedSize := size + (RawTree.bytes raw).length } :: more

/-- Only a name that is not UTF-8 is in the way of the entries of a tree. -/
theorem exists_parsedFrom (ordinal size : Nat) (entries : List RawEntry) :
    (∃ parsed, parsedFrom ordinal size entries = .ok parsed) ↔
      ∀ entry ∈ entries, ∃ name, decodeTreeName entry.name = .ok name := by
  induction entries generalizing ordinal size with
  | nil => exact ⟨fun _ _ hentry => (nomatch hentry), fun _ => ⟨[], rfl⟩⟩
  | cons raw entries ih =>
    rw [List.forall_mem_cons, ← ih (ordinal + 1) (size + (RawTree.bytes raw).length), parsedFrom,
      decodeEntry]
    cases hname : decodeTreeName raw.name with
    | error error => exact ⟨fun ⟨_, h⟩ => (nomatch h), fun ⟨⟨_, h⟩, _⟩ => (nomatch h)⟩
    | ok name =>
      cases hrest : parsedFrom (ordinal + 1) (size + (RawTree.bytes raw).length) entries with
      | error error =>
        constructor
        · rintro ⟨_, h⟩
          cases h
        · rintro ⟨-, _, h⟩
          cases h
      | ok more =>
        exact ⟨fun _ => ⟨⟨name, rfl⟩, more, rfl⟩, fun _ => ⟨_, rfl⟩⟩

theorem parsedFrom_append (ordinal size : Nat) (left right : List RawEntry) :
    parsedFrom ordinal size (left ++ right) =
      (parsedFrom ordinal size left).bind fun first =>
        (parsedFrom (ordinal + left.length) (size + (left.flatMap RawTree.bytes).length) right).map
          fun more => first ++ more := by
  induction left generalizing ordinal size with
  | nil =>
    cases h : parsedFrom ordinal size right with
    | error error => simp [parsedFrom, Except.bind, Except.map, h]
    | ok more => simp [parsedFrom, Except.bind, Except.map, h]
  | cons raw left ih =>
    have hordinal : ordinal + (raw :: left).length = ordinal + 1 + left.length := by
      rw [List.length_cons]
      omega
    have hsize : size + ((raw :: left).flatMap RawTree.bytes).length =
        size + (RawTree.bytes raw).length + (left.flatMap RawTree.bytes).length := by
      rw [List.flatMap_cons, List.length_append]
      omega
    rw [List.cons_append, parsedFrom, parsedFrom, ih, hordinal, hsize]
    cases decodeEntry raw with
    | error error => rfl
    | ok entry =>
      cases parsedFrom (ordinal + 1) (size + (RawTree.bytes raw).length) left with
      | error error => rfl
      | ok first =>
        show Except.map _ (Except.map _ _) = Except.map _ _
        cases parsedFrom (ordinal + 1 + left.length) _ right with
        | error error => rfl
        | ok more => rfl

namespace TreeParser

/-- The parser has read a part of an entry. -/
structure Reads (parser : TreeParser) (part : Part) : Prop where
  running : parser.finished = false
  fields : match part with
    | .inMode mode => parser.state = .mode ∧ parser.mode = mode ∧ parser.name = []
    | .inName mode name => parser.state = .name ∧ parser.modeText = textDecode mode ∧
        parser.mode = [] ∧ parser.name = name
    | .inOid mode name oid => parser.state = .oid ∧ parser.modeText = textDecode mode ∧
        parser.mode = [] ∧ parser.nameBytes = name ∧ parser.name = [] ∧ parser.oid = oid

theorem reads_start : start.Reads (.inMode []) := ⟨rfl, rfl, rfl, rfl⟩

variable {parser : TreeParser}

/-- What the structure refuses, the parser refuses. -/
theorem readByte_refused {part : Part} {byte : UInt8} {u : Unit}
    (h : parser.Reads part) (hstep : RawTree.step part byte = .error u) :
    ∃ error, parser.readByte byte = .error error := by
  cases part with
  | inMode mode =>
    obtain ⟨hstate, hmode, -⟩ := h.fields
    rw [RawTree.step] at hstep
    split at hstep
    · cases hstep
    · next hspace =>
      split at hstep
      · next hlong =>
        refine ⟨corrupt "tree mode is too long", ?_⟩
        unfold readByte
        rw [hstate]
        dsimp only
        rw [if_neg hspace, pushField, hmode, Option.any_some, decide_eq_true hlong]
        rfl
      · cases hstep
  | inName mode name =>
    rw [RawTree.step] at hstep
    split at hstep <;> cases hstep
  | inOid mode name oid =>
    rw [RawTree.step] at hstep
    split at hstep <;> cases hstep

/-- What it takes, the parser takes, if the name that ends there can be decoded. -/
theorem readByte_taken {size : Nat} {part next : Part} {byte : UInt8}
    {raws : List RawEntry} (h : parser.Reads part)
    (hsize : parser.observedSize = size + part.bytes.length + 1)
    (hstep : RawTree.step part byte = .ok (next, raws)) :
    ∃ parser' : TreeParser, parser'.Reads next ∧ parser'.observedSize = parser.observedSize ∧
      parser'.entryCount = parser.entryCount + raws.length ∧
      parser.readByte byte =
        (parsedFrom parser.entryCount size raws).map fun out => (parser', out) := by
  obtain ⟨hrunning, hfields⟩ := h
  obtain ⟨modeRead, nameRead, oidRead, _, _, nameBytes, count, observed, _⟩ := parser
  dsimp only at hrunning hfields hsize
  subst hrunning
  cases part with
  | inMode mode =>
    obtain ⟨rfl, rfl, rfl⟩ := hfields
    rw [RawTree.step] at hstep
    split at hstep
    · next hspace =>
      cases hstep
      refine ⟨_, ?_, ?_, ?_, if_pos hspace⟩
      · exact ⟨rfl, rfl, rfl, rfl, rfl⟩
      · rfl
      · rfl
    · next hspace =>
      split at hstep
      · cases hstep
      · next hlong =>
        cases hstep
        have hfield : pushField (some 6) "mode" modeRead byte = .ok (modeRead ++ [byte]) := by
          rw [pushField, Option.any_some, decide_eq_false hlong]
          rfl
        refine ⟨_, ?_, ?_, ?_, (if_neg hspace).trans (by rw [hfield]; rfl)⟩
        · exact ⟨rfl, rfl, rfl, rfl⟩
        · rfl
        · rfl
  | inName mode name =>
    obtain ⟨rfl, rfl, rfl, rfl⟩ := hfields
    rw [RawTree.step] at hstep
    split at hstep
    · next hnul =>
      cases hstep
      refine ⟨_, ?_, ?_, ?_, if_pos hnul⟩
      · exact ⟨rfl, rfl, rfl, rfl, rfl, rfl, rfl⟩
      · rfl
      · rfl
    · next hnul =>
      cases hstep
      refine ⟨_, ?_, ?_, ?_, if_neg hnul⟩
      · exact ⟨rfl, rfl, rfl, rfl, rfl⟩
      · rfl
      · rfl
  | inOid mode name oid =>
    obtain ⟨rfl, rfl, rfl, rfl, rfl, rfl⟩ := hfields
    have hlength : (oidRead ++ [byte]).length = oidRead.length + 1 := by
      rw [List.length_append, List.length_singleton]
    rw [RawTree.step, ← hlength] at hstep
    split at hstep
    · next hlast =>
      cases hstep
      have hbytes : size +
          (RawTree.bytes { mode, name := nameBytes, oid := oidRead ++ [byte] }).length =
          observed := by
        rw [hsize, RawTree.bytes, Part.bytes]
        simp only [List.length_append, List.length_cons, List.length_nil]
        omega
      refine ⟨{
        mode := []
        name := []
        oid := oidRead ++ [byte]
        state := .mode
        modeText := []
        nameBytes := []
        entryCount := count + 1
        observedSize := observed
        finished := false }, ⟨rfl, rfl, rfl, rfl⟩, rfl, rfl, (if_pos hlast).trans ?_⟩
      rw [emit, parsedFrom, decodeEntry, hbytes]
      cases decodeTreeName nameBytes with
      | error error => rfl
      | ok text => rfl
    · next hlast =>
      cases hstep
      refine ⟨_, ?_, ?_, ?_, if_neg hlast⟩
      · exact ⟨rfl, rfl, rfl, rfl, rfl, rfl, rfl⟩
      · rfl
      · rfl

theorem readByte_finished {byte : UInt8}
    {next : TreeParser × List ParsedTreeEntry} (h : parser.readByte byte = .ok next) :
    next.1.finished = parser.finished := by
  have hmap : ∀ {α : Type} {x : Except GitError α} {f : α → TreeParser × List ParsedTreeEntry},
      (∀ a, (f a).1.finished = parser.finished) → x.map f = .ok next →
      next.1.finished = parser.finished := by
    intro α x f hf hx
    cases x with
    | error error => cases hx
    | ok a =>
      cases hx
      exact hf a
  unfold readByte at h
  split at h
  · split at h
    · cases h
      rfl
    · exact hmap (fun _ => rfl) h
  · split at h
    · cases h
      rfl
    · exact hmap (fun _ => rfl) h
  · dsimp only at h
    split at h
    · exact hmap (fun _ => rfl) h
    · cases h
      rfl

theorem pushByte_finished {byte : UInt8}
    {next : TreeParser × List ParsedTreeEntry} (h : parser.pushByte byte = .ok next) :
    next.1.finished = parser.finished := by
  unfold pushByte at h
  dsimp only at h
  split at h
  · have hnext := readByte_finished h
    exact hnext
  · cases h

/-- Chunks are pushed as their octets are, one after the other. -/
theorem run_push (chunks : List (List UInt8)) :
    run push start chunks = run pushByte start chunks.flatten := by
  rw [← run_run]
  refine Transducer.run_congr (fun parser => parser.finished = false) ?_ ?_ chunks rfl
  · intro parser chunk hrunning
    rw [push, hrunning, if_neg Bool.false_ne_true]
  · intro parser chunk next hrunning hrun
    exact Transducer.run_invariant (fun parser => parser.finished = false)
      (fun hrunning hstep => (pushByte_finished hstep).trans hrunning) hrunning hrun

theorem safe_of_le {m n : Nat} (hle : m ≤ n) (h : isSafeInteger n = true) :
    isSafeInteger m = true := by
  rw [isSafeInteger_iff] at h ⊢
  omega

theorem pushByte_safe (byte : UInt8)
    (hsafe : isSafeInteger (parser.observedSize + 1 : Nat) = true) :
    parser.pushByte byte =
      { parser with observedSize := parser.observedSize + 1 }.readByte byte := by
  unfold pushByte
  dsimp only
  rw [if_pos hsafe]

/-- The octets of a tree, or of a part of one. -/
theorem run_pushByte {size : Nat} {part : Part} (octets : List UInt8)
    (h : parser.Reads part) (hok : part.Ok)
    (hsize : parser.observedSize = size + part.bytes.length)
    (hsafe : isSafeInteger (parser.observedSize + octets.length : Nat) = true) :
    (∀ u, run RawTree.step part octets = .error u →
        ∃ error, run pushByte parser octets = .error error) ∧
      ∀ last raws, run RawTree.step part octets = .ok (last, raws) →
        ∃ parser' : TreeParser, parser'.Reads last ∧
          run pushByte parser octets =
            (parsedFrom parser.entryCount size raws).map fun out => (parser', out) := by
  induction octets generalizing parser size part with
  | nil =>
    refine ⟨fun u hrun => (nomatch hrun), fun last raws hrun => ?_⟩
    cases hrun
    exact ⟨parser, h, rfl⟩
  | cons byte octets ih =>
    rw [List.length_cons] at hsafe
    have hbyte := pushByte_safe byte
      (safe_of_le (show parser.observedSize + 1 ≤ _ from Nat.add_le_add_left (by omega) _) hsafe)
    cases hstep : RawTree.step part byte with
    | error u =>
      have hcounted : { parser with observedSize := parser.observedSize + 1 }.Reads part :=
        ⟨h.running, h.fields⟩
      obtain ⟨error, herror⟩ := readByte_refused hcounted hstep
      refine ⟨fun _ _ => ⟨error, run_of_error _ (hbyte.trans herror)⟩, fun last raws hrun => ?_⟩
      rw [run_of_error _ hstep] at hrun
      cases hrun
    | ok next =>
      obtain ⟨next, first⟩ := next
      have hcounted : { parser with observedSize := parser.observedSize + 1 }.Reads part :=
        ⟨h.running, h.fields⟩
      obtain ⟨parser', hreads, hobserved, hcount, htaken⟩ :=
        readByte_taken hcounted (congrArg (· + 1) hsize) hstep
      dsimp only at hobserved hcount htaken
      obtain ⟨hnext, hbytes, -⟩ := RawTree.step_sound hok hstep
      have hlength := congrArg List.length hbytes
      rw [List.length_append, List.length_append, List.length_singleton] at hlength
      have hsize' : parser'.observedSize =
          size + (first.flatMap RawTree.bytes).length + next.bytes.length := by omega
      have hsum : parser'.observedSize + octets.length =
          parser.observedSize + (octets.length + 1) := by omega
      rw [← hsum] at hsafe
      have hrest := ih hreads hnext hsize' hsafe
      rw [run_of_ok _ hstep]
      -- the entry that ends here is decoded before the octets behind it are read
      cases hfirst : parsedFrom parser.entryCount size first with
      | error error =>
        have herror : parser.pushByte byte = .error error := by
          rw [hbyte, htaken, hfirst]
          rfl
        refine ⟨fun _ _ => ⟨error, run_of_error _ herror⟩, fun last raws hrun => ?_⟩
        cases hraw : run RawTree.step next octets with
        | error u =>
          rw [hraw] at hrun
          cases hrun
        | ok more =>
          rw [hraw] at hrun
          cases hrun
          obtain ⟨parser'', hreads'', -⟩ := hrest.2 _ _ hraw
          refine ⟨parser'', hreads'', ?_⟩
          rw [run_of_error _ herror, parsedFrom_append, hfirst]
          rfl
      | ok out =>
        have hok : parser.pushByte byte = .ok (parser', out) := by
          rw [hbyte, htaken, hfirst]
          rfl
        rw [run_of_ok _ hok]
        refine ⟨fun u hrun => ?_, fun last raws hrun => ?_⟩
        · cases hraw : run RawTree.step next octets with
          | error u =>
            obtain ⟨error, herror⟩ := hrest.1 u hraw
            exact ⟨error, by rw [herror]; rfl⟩
          | ok more =>
            rw [hraw] at hrun
            cases hrun
        · cases hraw : run RawTree.step next octets with
          | error u =>
            rw [hraw] at hrun
            cases hrun
          | ok more =>
            rw [hraw] at hrun
            cases hrun
            obtain ⟨parser'', hreads'', hrun''⟩ := hrest.2 _ _ hraw
            refine ⟨parser'', hreads'', ?_⟩
            rw [hrun'', parsedFrom_append, hfirst, hcount]
            show Except.map _ (Except.map _ _) = Except.map _ (Except.map _ _)
            cases parsedFrom (parser.entryCount + first.length)
              (size + (first.flatMap RawTree.bytes).length) more.2 with
            | error error => rfl
            | ok out => rfl

theorem finish_eq_ok {part : Part} (h : parser.Reads part) :
    parser.finish = .ok () ↔ part = .inMode [] := by
  obtain ⟨hrunning, hfields⟩ := h
  unfold finish
  rw [hrunning, if_neg Bool.false_ne_true, reject_eq_ok]
  cases part with
  | inMode mode =>
    obtain ⟨hstate, hmode, -⟩ := hfields
    rw [hstate, hmode]
    cases mode with
    | nil => exact ⟨fun _ => rfl, fun _ => rfl⟩
    | cons byte mode => exact ⟨fun h => (nomatch h), fun h => (nomatch h)⟩
  | inName mode name =>
    rw [hfields.1]
    exact ⟨fun h => (nomatch h), fun h => (nomatch h)⟩
  | inOid mode name oid =>
    rw [hfields.1]
    exact ⟨fun h => (nomatch h), fun h => (nomatch h)⟩

end TreeParser

/-- However a tree is divided into chunks, the parser yields its entries, and it accepts nothing
    else. -/
theorem parseTreeStream_iff {chunks : List (List UInt8)}
    (hsize : isSafeInteger chunks.flatten.length = true) {parsed : List ParsedTreeEntry} :
    parseTreeStream chunks = .ok parsed ↔
      ∃ entries, IsTree chunks.flatten entries ∧ parsedFrom 0 0 entries = .ok parsed := by
  have hok : (Part.inMode []).Ok := ⟨List.not_mem_nil, Nat.zero_le _⟩
  have hstart : TreeParser.start.observedSize + chunks.flatten.length = chunks.flatten.length :=
    Nat.zero_add _
  rw [← hstart] at hsize
  obtain ⟨hrefused, htaken⟩ :=
    TreeParser.run_pushByte chunks.flatten TreeParser.reads_start hok rfl hsize
  unfold parseTreeStream
  rw [TreeParser.run_push]
  cases hraw : run RawTree.step (.inMode []) chunks.flatten with
  | error u =>
    obtain ⟨error, herror⟩ := hrefused u hraw
    rw [herror]
    refine ⟨fun h => (nomatch h), fun ⟨entries, htree, _⟩ => ?_⟩
    rw [RawTree.run_eq_ok.2 htree] at hraw
    cases hraw
  | ok last =>
    obtain ⟨last, raws⟩ := last
    obtain ⟨parser, hreads, hrun⟩ := htaken last raws hraw
    rw [hrun]
    have hsame : ∀ entries, IsTree chunks.flatten entries → last = .inMode [] ∧ raws = entries := by
      intro entries htree
      rw [RawTree.run_eq_ok.2 htree] at hraw
      cases hraw
      exact ⟨rfl, rfl⟩
    cases hparsed : parsedFrom TreeParser.start.entryCount 0 raws with
    | error error =>
      refine ⟨fun h => (nomatch h), fun ⟨entries, htree, hentries⟩ => ?_⟩
      rw [← (hsame entries htree).2] at hentries
      exact nomatch hparsed.symm.trans hentries
    | ok out =>
      show Except.map _ parser.finish = _ ↔ _
      constructor
      · intro h
        cases hfinish : parser.finish with
        | error error =>
          rw [hfinish] at h
          cases h
        | ok u =>
          rw [hfinish] at h
          cases h
          rw [(TreeParser.finish_eq_ok hreads).1 hfinish] at hraw
          exact ⟨raws, RawTree.run_eq_ok.1 hraw, hparsed⟩
      · rintro ⟨entries, htree, hentries⟩
        obtain ⟨hlast, rfl⟩ := hsame entries htree
        rw [(TreeParser.finish_eq_ok hreads).2 hlast]
        exact hparsed.symm.trans hentries

end Kompjutr.Objects
