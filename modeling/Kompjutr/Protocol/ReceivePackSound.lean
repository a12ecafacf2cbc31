/-
  Kompjutr.Protocol.ReceivePackSound

  A push arrives as it was sent: the server reads the commands of the client and stands at
  the first byte of the pack, and the client reads for every command what the server
  reported, however the bytes are divided into chunks and on either kind of body.
-/
import Kompjutr.Protocol.AdvertisementSound
import Kompjutr.Protocol.ReceivePack

namespace Kompjutr.Protocol

open Objects (Text text isOid indexOf indexOf_unit indexOf_eq_none)
open Refs (checkRefText hasCanonicalRefSyntax)
open Utf8 (WellFormed)
open Fuel (bind_eq_ok ok_bind)
open List (any_eq_false append_assoc append_nil contains_iff_mem flatten_cons length_append
  length_cons mem_append mem_cons mem_cons_of_mem mem_cons_self mem_map not_mem_nil)
open Bool (not_eq_true or_eq_true)

variable {destinations : List Text} {rest : Text} {status : ServerRefStatus}
  {budget : StatusWireBudget} {received : List ServerRefStatus} {atomic : Bool}
  {response : List (List UInt8)}

variable {payload frame : List UInt8} {fuel index : Nat} {reader : ByteReader}
  {line unpack ref : Text} {request : ReceivePackRequest} {prepared : PreparedRequest}
  {commands : List ReceivePackCommand} {frames chunks pieces : List (List UInt8)}
  {statuses : List ServerRefStatus}

-- One command

/-- A command that both sides accept. -/
structure CommandOk (command : ReceivePackCommand) : Prop where
  oldOid : isOid command.oldOid = true
  newOid : isOid command.newOid = true
  changes : ¬ (command.oldOid = zeroOid ∧ command.newOid = zeroOid)
  ref : requireServerRef command.ref = .ok ()

/-- The line of a command without capabilities. -/
def commandLine (command : ReceivePackCommand) : Text :=
  command.oldOid ++ 0x20 :: (command.newOid ++ 0x20 :: command.ref)

theorem commandText_eq (capabilities : List Text) (first : Bool) (command : ReceivePackCommand) :
    commandText capabilities first command =
      commandLine command ++ commandSuffix capabilities first ++ [0x0a] := by
  have hspace : text " " = [0x20] := rfl
  rw [commandText, commandLine, hspace]
  simp

theorem encode_newline (line : Text) : Utf8.encode (line ++ [0x0a]) = Utf8.encode line ++ [0x0a] := by
  have hpoints := Utf8.points_cut line [] (u := 0x0a) (by decide)
  rw [Utf8.encode, hpoints, List.flatMap_append]
  rfl

namespace CommandOk

variable {command : ReceivePackCommand}

section

variable (h : CommandOk command)

include h

theorem served : ServedName command.ref := requireServerRef_ok h.ref

theorem formed : WellFormed (commandLine command) := by
  have hrow := (h.served.rowOk h.newOid).formed
  have hspace : command.newOid ++ text " " ++ command.ref = command.newOid ++ 0x20 :: command.ref :=
    append_assoc _ _ _
  have hold : WellFormed command.oldOid := Utf8.wellFormed_of_plain fun u hu =>
    plain_of_lt (by have := (isOid_cases h.oldOid).2 u hu; omega)
  rw [hspace] at hrow
  exact (Utf8.wellFormed_cut _ _ (by decide)).2 ⟨hold, hrow⟩

/-- A command has none of the units that end a line or a field. -/
theorem unit_ne {u : UInt16} (hu : Refs.isBreak u = true) :
    u ∉ commandLine command := by
  have hname := (Refs.checkRefTextFrom_sound h.served.checked).1
  have hsmall : u.toNat < 0x30 ∧ u ≠ 0x20 := by
    rw [Refs.isBreak] at hu
    simp only [or_eq_true, decide_eq_true_eq] at hu
    obtain (rfl | rfl) | rfl := hu
    all_goals decide
  simp only [commandLine, mem_append, mem_cons, not_or]
  refine ⟨not_mem_oid h.oldOid hsmall.1, hsmall.2, not_mem_oid h.newOid hsmall.1, hsmall.2, ?_⟩
  intro hmem
  have := hname u hmem
  rw [hu] at this
  cases this

theorem splitOn_line :
    (commandLine command).splitOn 0x20 = [command.oldOid, command.newOid, command.ref] := by
  have hline : commandLine command =
      List.intercalate [0x20] [command.oldOid, command.newOid, command.ref] := by
    simp [commandLine]
  have hspace : ∀ field ∈ [command.oldOid, command.newOid, command.ref], 0x20 ∉ field := by
    intro field hfield
    simp only [mem_cons, not_mem_nil, or_false] at hfield
    obtain rfl | rfl | rfl := hfield
    · exact not_mem_oid h.oldOid (by decide)
    · exact not_mem_oid h.newOid (by decide)
    · exact h.served.space
  rw [hline]
  exact List.splitOn_intercalate 0x20 hspace (by simp)

/-- The fields of a command are read back. -/
theorem parseCommand_line {refs : List Text} (hnew : command.ref ∉ refs) :
    parseCommand refs (commandLine command) = .ok command := by
  have hboth : (command.oldOid = zeroOid && command.newOid = zeroOid) = false := by
    rw [← not_eq_true, Bool.and_eq_true, decide_eq_true_eq, decide_eq_true_eq]
    exact h.changes
  have hcontains : refs.contains command.ref = false := by
    rw [← not_eq_true, contains_iff_mem]
    exact hnew
  have hoid : ∀ oid, isOid oid = true → requireServerOid oid true = .ok () := by
    intro oid hoid
    rw [requireServerOid, hoid]
    rfl
  rw [parseCommand, h.splitOn_line]
  dsimp only
  rw [hoid _ h.oldOid, ok_bind, hoid _ h.newOid, ok_bind, hboth, reject,
    if_neg Bool.false_ne_true, ok_bind, h.ref, ok_bind, hcontains, reject,
    if_neg Bool.false_ne_true, ok_bind]
  rfl

/-- The frame of a command, with what follows the ref. -/
theorem packetText (capabilities : List Text) (first : Bool)
    (hformed : WellFormed (commandLine command ++ commandSuffix capabilities first))
    (hplain : 0x0a ∉ commandSuffix capabilities first ∧ 0x0d ∉ commandSuffix capabilities first) :
    serverPacketText (.line (Utf8.encode (commandText capabilities first command))) =
      .ok (commandLine command ++ commandSuffix capabilities first) := by
  have hline : WellFormed (commandLine command ++ commandSuffix capabilities first ++ [0x0a]) :=
    (Utf8.wellFormed_cut _ [] (by decide)).2 ⟨hformed, Utf8.wellFormed_nil⟩
  have hdecode : Utf8.decode (Utf8.encode (commandText capabilities first command)) =
      commandText capabilities first command := by
    rw [Utf8.decode_encode, commandText_eq]
    exact hline
  have hunit : ∀ u, Refs.isBreak u = true → u ∉ commandSuffix capabilities first →
      (commandLine command ++ commandSuffix capabilities first).contains u = false := by
    intro u hu hsuffix
    rw [← not_eq_true, contains_iff_mem, mem_append, not_or]
    exact ⟨h.unit_ne hu, hsuffix⟩
  rw [serverPacketText]
  dsimp only
  rw [hdecode, reject, if_neg (by simp), ok_bind, commandText_eq, chomp_newline,
    hunit 0x0a (by decide) hplain.1, hunit 0x0d (by decide) hplain.2, reject, if_neg (by decide),
    ok_bind]
  rfl

end

end CommandOk

-- The request

theorem length_pos_of_pkt (h : pkt payload = .ok frame) : 1 ≤ frame.length := by
  obtain ⟨-, rfl⟩ := pkt_ok h
  rw [length_append]
  exact Nat.le_add_right_of_le (by decide : 1 ≤ 4)

/-- One frame of a request. -/
theorem readCommands_step {before : List ReceivePackCommand}
    {reportStatus reported : Bool} {after : ByteReader} {command : ReceivePackCommand}
    (h : CommandOk command)
    (hread : readPkt reader = .ok (some (.line payload), after))
    (hcount : before.length < maxReceivePackCommands)
    (htext : serverPacketText (.line payload) = .ok line)
    (hcapabilities : takeReceiveCapabilities before reportStatus line =
      .ok (reported, commandLine command))
    (hnew : command.ref ∉ before.map (·.ref)) :
    readCommands (fuel + 1) before reportStatus reader =
      readCommands fuel (before ++ [command]) reported after := by
  rw [readCommands, hread, ok_bind]
  dsimp only
  rw [reject, if_neg (by simpa using Nat.ne_of_lt hcount), ok_bind, htext, ok_bind, hcapabilities,
    ok_bind]
  dsimp only
  rw [h.parseCommand_line hnew, ok_bind]

/-- The commands after the first one, up to the flush. -/
theorem readCommands_next {capabilities : List Text} {index fuel : Nat}
    {commands before : List ReceivePackCommand} {frames : List (List UInt8)} {reportStatus : Bool}
    {reader : ByteReader} {rest : List UInt8}
    (hframes : commandFrames capabilities (index + 1) commands = .ok frames)
    (hcommands : ∀ command ∈ commands, CommandOk command)
    (hnodup : ((before ++ commands).map (·.ref)).Nodup)
    (hcount : (before ++ commands).length ≤ maxReceivePackCommands)
    (hfuel : commands.length < fuel)
    (hbytes : reader.bytes = frames.flatten ++ flushPkt ++ rest) :
    ∃ after, readCommands fuel before reportStatus reader =
      .ok { commands := before ++ commands, reportStatus, reader := after } ∧
        after.bytes = rest := by
  induction commands generalizing before frames fuel index reader with
  | nil =>
    cases hframes
    obtain ⟨fuel, rfl⟩ := Nat.exists_eq_add_one.2 (by omega)
    obtain ⟨after, hread, hafter⟩ := readPkt_flush hbytes
    refine ⟨after, ?_, hafter⟩
    rw [readCommands, hread, ok_bind, append_nil]
  | cons command commands ih =>
    obtain ⟨fuel, rfl⟩ := Nat.exists_eq_succ_of_ne_zero (Nat.ne_of_gt (Nat.zero_lt_of_lt hfuel))
    obtain ⟨frame, hframe, hframes⟩ := bind_eq_ok.1 hframes
    obtain ⟨more, hmore, hframes⟩ := bind_eq_ok.1 hframes
    cases hframes
    replace hframe := Fuel.after_check hframe
    have hok := hcommands command mem_cons_self
    have hsuffix : commandSuffix capabilities false = [] := rfl
    have htext := hok.packetText capabilities false
      (by rw [hsuffix, append_nil]; exact hok.formed) ⟨not_mem_nil, not_mem_nil⟩
    rw [hsuffix, append_nil] at htext
    have hindex : decide (index + 1 = 0) = false := rfl
    rw [hindex] at hframe
    rw [flatten_cons, append_assoc, append_assoc] at hbytes
    obtain ⟨after, hread, hafter⟩ := readPkt_line hframe hbytes
    have hplain : takeReceiveCapabilities before reportStatus (commandLine command) =
        .ok (reportStatus, commandLine command) := by
      rw [takeReceiveCapabilities, indexOf_eq_none (hok.unit_ne (by decide))]
    have hnew : command.ref ∉ before.map (·.ref) := by
      rw [List.map_append] at hnodup
      intro hmem
      exact (List.nodup_append.1 hnodup).2.2 _ hmem _ (List.mem_map_of_mem mem_cons_self) rfl
    rw [length_append, length_cons] at hcount
    rw [readCommands_step hok hread (by omega) htext hplain hnew]
    have hlast : before ++ command :: commands = (before ++ [command]) ++ commands := by simp
    rw [hlast] at hnodup ⊢
    refine ih hmore (fun other hother => hcommands other (mem_cons_of_mem _ hother)) hnodup ?_
      (Nat.lt_of_succ_lt_succ hfuel) (hafter.trans (append_assoc _ _ _).symm)
    simp only [length_append, length_cons, List.length_nil]
    omega

/-- What a client asks of a server that reports, deletes and does nothing else. -/
theorem requested_of_advertised (h : prepareRequest request = .ok prepared)
    (hadvertised : request.advertised = receiveServerCapabilities) :
    requestedCapabilities request = [text "report-status"] ∧ request.pushOptions = [] ∧
      request.atomic = false := by
  iterate 7 replace h := Fuel.after_check h
  obtain ⟨⟨⟩, hatomic, h⟩ := bind_eq_ok.1 h
  obtain ⟨⟨⟩, hoptions, -⟩ := bind_eq_ok.1 h
  rw [requireCapability, reject_eq_ok, hadvertised] at hatomic hoptions
  have hnoAtomic : receiveServerCapabilities.contains (text "atomic") = false := by decide
  have hnoOptions : receiveServerCapabilities.contains (text "push-options") = false := by decide
  have hnoSideband : receiveServerCapabilities.contains (text "side-band-64k") = false := by decide
  rw [hnoAtomic, Bool.not_false, Bool.and_true] at hatomic
  rw [hnoOptions, Bool.not_false, Bool.and_true, decide_eq_false_iff_not, not_not] at hoptions
  refine ⟨?_, hoptions, hatomic⟩
  rw [requestedCapabilities, hadvertised, hnoSideband, hatomic, hoptions]
  rfl

theorem validateCommands_nodup (hdestinations : destinations.Nodup)
    (h : validateCommands index destinations commands = .ok ()) :
    (destinations ++ commands.map (·.ref)).Nodup := by
  induction commands generalizing index destinations with
  | nil => simpa using hdestinations
  | cons command commands ih =>
    replace h := Fuel.after_check h
    obtain ⟨⟨⟩, hnew, h⟩ := bind_eq_ok.1 h
    rw [reject_eq_ok, ← not_eq_true, contains_iff_mem] at hnew
    have hgrown : (destinations ++ [command.ref]).Nodup := by
      rw [← List.concat_eq_append]
      exact hdestinations.concat hnew
    have hrest := ih hgrown h
    rwa [append_assoc] at hrest

theorem validateCommands_oids (h : validateCommands index destinations commands = .ok ()) :
    ∀ command ∈ commands, isOid command.oldOid = true ∧ isOid command.newOid = true := by
  induction commands generalizing index destinations with
  | nil => exact fun command hmem => nomatch hmem
  | cons first commands ih =>
    obtain ⟨⟨⟩, hfirst, h⟩ := bind_eq_ok.1 h
    replace h := Fuel.after_check h
    obtain ⟨⟨⟩, hoids, -⟩ := bind_eq_ok.1 hfirst
    rw [reject_eq_ok, Bool.or_eq_false_iff, Bool.not_eq_false', Bool.not_eq_false'] at hoids
    intro command hmem
    obtain rfl | hmem := mem_cons.1 hmem
    · exact hoids
    · exact ih h command hmem

/-- What was prepared from a request. -/
structure PreparedOk (request : ReceivePackRequest) (prepared : PreparedRequest) : Prop where
  some : request.commands ≠ []
  count : request.commands.length ≤ maxReceivePackCommands
  nodup : (request.commands.map (·.ref)).Nodup
  oids : ∀ command ∈ request.commands, isOid command.oldOid = true ∧ isOid command.newOid = true
  frames : commandFrames (requestedCapabilities request) 0 request.commands =
    .ok prepared.commandFrames
  options : request.pushOptions.mapM pktText = .ok prepared.optionFrames
  commands : prepared.commands = request.commands
  atomic : prepared.atomic = request.atomic
  sideband : prepared.sideband = (requestedCapabilities request).contains (text "side-band-64k")

theorem prepareRequest_ok
    (h : prepareRequest request = .ok prepared) : PreparedOk request prepared := by
  obtain ⟨⟨⟩, hsome, h⟩ := bind_eq_ok.1 h
  obtain ⟨⟨⟩, hcount, h⟩ := bind_eq_ok.1 h
  replace h := Fuel.after_check h
  obtain ⟨⟨⟩, hvalid, h⟩ := bind_eq_ok.1 h
  iterate 5 replace h := Fuel.after_check h
  obtain ⟨frames, hframes, h⟩ := bind_eq_ok.1 h
  obtain ⟨options, hoptions, h⟩ := bind_eq_ok.1 h
  rw [reject_eq_ok, decide_eq_false_iff_not] at hsome hcount
  rw [Nat.not_lt] at hcount
  cases h
  exact ⟨hsome, hcount, validateCommands_nodup List.nodup_nil hvalid,
    validateCommands_oids hvalid, hframes, hoptions, rfl, rfl, rfl⟩

theorem length_le_commandFrames {capabilities : List Text}
    (h : commandFrames capabilities index commands = .ok frames) :
    commands.length ≤ frames.flatten.length := by
  induction commands generalizing index frames with
  | nil => exact Nat.zero_le _
  | cons command commands ih =>
    obtain ⟨frame, hframe, h⟩ := bind_eq_ok.1 h
    obtain ⟨more, hmore, h⟩ := bind_eq_ok.1 h
    cases h
    replace hframe := Fuel.after_check hframe
    have := ih hmore
    have := length_pos_of_pkt hframe
    rw [length_cons, flatten_cons, length_append]
    omega

/-- The first command, whose capabilities ask for a report. -/
theorem takeReceiveCapabilities_first {command : ReceivePackCommand} (h : CommandOk command) :
    takeReceiveCapabilities [] false
      (commandLine command ++ commandSuffix [text "report-status"] true) =
        .ok (true, commandLine command) := by
  have hdrop : (commandLine command ++ 0 :: joined [text "report-status"]).drop
      ((commandLine command).length + 1) = joined [text "report-status"] := by
    rw [List.drop_append, List.drop_eq_nil_of_le (by omega), Nat.add_sub_cancel_left]
    rfl
  have hselected : parseCapabilities (joined [text "report-status"]) receiveServerCapabilities =
      .ok [text "report-status"] := by
    decide +kernel
  rw [commandSuffix, if_pos rfl, takeReceiveCapabilities, indexOf_unit _ (h.unit_ne (by decide))]
  dsimp only
  rw [reject, if_neg (by simp), ok_bind, hdrop, hselected, ok_bind, List.take_left' rfl]
  rfl

/-- The server reads the commands that the client sent and stands at the pack. -/
theorem parseReceivePackRequest_ok (h : prepareRequest request = .ok prepared)
    (hadvertised : request.advertised = receiveServerCapabilities)
    (hserved : ∀ command ∈ request.commands, requireServerRef command.ref = .ok () ∧
      ¬ (command.oldOid = zeroOid ∧ command.newOid = zeroOid))
    (hchunks : chunks.flatten = (requestBody prepared).flatten) :
    ∃ parsed, parseReceivePackRequest chunks = .ok parsed ∧
      parsed.commands = request.commands ∧ parsed.reportStatus = true ∧
      parsed.reader.bytes = (packChunks prepared).flatten := by
  obtain ⟨hrequested, hpush, -⟩ := requested_of_advertised h hadvertised
  obtain ⟨hsome, hcount, hnodup, hoids, hframes, hoptions, -, -, -⟩ := prepareRequest_ok h
  have hcommands : ∀ command ∈ request.commands, CommandOk command := fun command hmem =>
    ⟨(hoids command hmem).1, (hoids command hmem).2, (hserved command hmem).2,
      (hserved command hmem).1⟩
  rw [hrequested] at hframes
  rw [hpush] at hoptions
  have hnone : prepared.optionFrames = [] := (Except.ok.inj hoptions).symm
  have hbytes : (ByteReader.ofChunks chunks).bytes =
      prepared.commandFrames.flatten ++ flushPkt ++ (packChunks prepared).flatten := by
    rw [bytes_ofChunks, hchunks, requestBody, hnone]
    simp
  have hfuel : request.commands.length ≤ chunks.flatten.length := by
    have := length_le_commandFrames hframes
    rw [← bytes_ofChunks, hbytes, length_append, length_append]
    omega
  obtain ⟨command, commands, hlist⟩ := List.exists_cons_of_ne_nil hsome
  rw [hlist] at hframes hcommands hnodup hcount hfuel ⊢
  obtain ⟨frame, hframe, hframes⟩ := bind_eq_ok.1 hframes
  obtain ⟨more, hmore, hframes⟩ := bind_eq_ok.1 hframes
  replace hframe := Fuel.after_check hframe
  rw [← Except.ok.inj hframes, flatten_cons, append_assoc, append_assoc] at hbytes
  have hok := hcommands command mem_cons_self
  have hplain : 0x0a ∉ commandSuffix [text "report-status"] true ∧
      0x0d ∉ commandSuffix [text "report-status"] true := by
    decide
  have hunits : ∀ u ∈ joined [text "report-status"], u.toNat < 0x80 :=
    ascii_of_all (by decide)
  have htext := hok.packetText [text "report-status"] true
    ((Utf8.wellFormed_cut _ _ (by decide)).2 ⟨hok.formed,
      Utf8.wellFormed_of_plain fun u hu => plain_of_lt (hunits u hu)⟩) hplain
  obtain ⟨after, hread, hafter⟩ := readPkt_line hframe hbytes
  obtain ⟨last, hrest, hlast⟩ := @readCommands_next _ _ chunks.flatten.length
    _ [command] _ true _ _ hmore (fun other hother => hcommands other (mem_cons_of_mem _ hother)) hnodup hcount hfuel
    (hafter.trans (append_assoc _ _ _).symm)
  refine ⟨{ commands := [command] ++ commands, reportStatus := true, reader := last }, ?_, rfl, rfl,
    hlast⟩
  rw [parseReceivePackRequest, readCommands_step hok hread (by decide) htext
    (takeReceiveCapabilities_first hok) not_mem_nil]
  exact hrest

-- One line of the report

/-- A line that a report can have. -/
structure LineOk (line : Text) : Prop where
  formed : WellFormed line
  single : ∀ u ∈ line, Refs.isBreak u = false

theorem single_of_all (h : line.all (fun u => decide (u.toNat < 0x80) && !Refs.isBreak u) = true) :
    ∀ u ∈ line, u.toNat < 0x80 ∧ Refs.isBreak u = false := by
  intro u hu
  have hunit := List.all_eq_true.1 h u hu
  simpa using hunit

theorem LineOk.append {start : Text} (hstart : ∀ u ∈ start, u.toNat < 0x80 ∧ Refs.isBreak u = false)
    (h : LineOk rest) : LineOk (start ++ rest) := by
  refine ⟨?_, fun u hu => ?_⟩
  · rw [WellFormed, Utf8.toWellFormed_append fun u hu => plain_of_lt (hstart u hu).1, h.formed]
  · obtain hu | hu := mem_append.1 hu
    · exact (hstart u hu).2
    · exact h.single u hu

theorem decodeLine_ok {u : UInt16} (hu : u < 0x80) (h : LineOk (u :: rest)) :
    decodeLine (.line (Utf8.encode (u :: rest ++ [0x0a]))) = .ok (u :: rest) := by
  have hnone : ∀ v, Refs.isBreak v = true → (u :: rest).contains v = false := by
    intro v hv
    rw [← not_eq_true, contains_iff_mem]
    intro hmem
    rw [h.single v hmem] at hv
    cases hv
  rw [encode_newline, decodeLine, reject, if_neg (by simp), ok_bind, reject, if_neg (by simp),
    ok_bind, List.dropLast_concat, strictDecode_encode hu h.formed]
  dsimp only
  rw [hnone 0 (by decide), hnone 0x0d (by decide), hnone 0x0a (by decide), reject,
    if_neg (by decide), ok_bind]
  rfl

/-- The line of a status. -/
def statusLine (status : ServerRefStatus) : Text :=
  match status.error with
  | none => text "ok " ++ status.ref
  | some error => text "ng " ++ status.ref ++ text " " ++ error

def ParsedStatusLine.ofStatus (status : ServerRefStatus) : ParsedStatusLine :=
  match status.error with
  | none => .ok status.ref
  | some error => .ng status.ref error

theorem requireStatusText_ok (h : requireStatusText line = .ok ()) :
    line ≠ [] ∧ ∀ u ∈ line, Refs.isBreak u = false := by
  rw [requireStatusText, reject_eq_ok, Bool.or_eq_false_iff, decide_eq_false_iff_not,
    any_eq_false] at h
  refine ⟨h.1, fun u hu => ?_⟩
  have := h.2 u hu
  rw [Refs.isBreak]
  simp only [or_eq_true, decide_eq_true_eq, not_or] at this
  simp only [Bool.or_eq_false_iff, decide_eq_false_iff_not]
  exact ⟨⟨this.1.1, this.2⟩, this.1.2⟩

theorem parseStatusLine_unpack (h : unpack ≠ []) :
    parseStatusLine (text "unpack " ++ unpack) = .ok (.unpack unpack) := by
  have hstart : (text "unpack ").isPrefixOf (text "unpack " ++ unpack) = true :=
    List.isPrefixOf_iff_prefix.2 (List.prefix_append _ _)
  have hdrop : (text "unpack " ++ unpack).drop 7 = unpack := List.drop_left' (by decide)
  rw [parseStatusLine, if_pos hstart, hdrop, reject, if_neg (by simpa using h), ok_bind]
  rfl

theorem parseStatusLine_ok (h : ServedName ref) :
    parseStatusLine (text "ok " ++ ref) = .ok (.ok ref) := by
  have hunpack : ¬ (text "unpack ").isPrefixOf (text "ok " ++ ref) = true := by
    rw [show (text "unpack ").isPrefixOf (text "ok " ++ ref) = false from rfl]
    exact Bool.false_ne_true
  have hstart : (text "ok ").isPrefixOf (text "ok " ++ ref) = true :=
    List.isPrefixOf_iff_prefix.2 (List.prefix_append _ _)
  have hdrop : (text "ok " ++ ref).drop 3 = ref := List.drop_left' (by decide)
  have hne : ref ≠ [] := by
    rintro rfl
    exact absurd h.refs (by decide)
  rw [parseStatusLine, if_neg hunpack, if_pos hstart, hdrop, reject, if_neg ?_, ok_bind]
  · rfl
  · simp only [or_eq_true, decide_eq_true_eq, contains_iff_mem, not_or]
    exact ⟨hne, h.space⟩

theorem parseStatusLine_ng {error : Text} (h : ServedName ref) (herror : error ≠ []) :
    parseStatusLine (text "ng " ++ ref ++ text " " ++ error) = .ok (.ng ref error) := by
  have hline : text "ng " ++ ref ++ text " " ++ error = text "ng " ++ (ref ++ 0x20 :: error) := by
    rw [append_assoc, append_assoc]
    rfl
  have hunpack : ¬ (text "unpack ").isPrefixOf (text "ng " ++ (ref ++ 0x20 :: error)) = true := by
    rw [show (text "unpack ").isPrefixOf (text "ng " ++ (ref ++ 0x20 :: error)) = false from rfl]
    exact Bool.false_ne_true
  have hok : ¬ (text "ok ").isPrefixOf (text "ng " ++ (ref ++ 0x20 :: error)) = true := by
    rw [show (text "ok ").isPrefixOf (text "ng " ++ (ref ++ 0x20 :: error)) = false from rfl]
    exact Bool.false_ne_true
  have hstart : (text "ng ").isPrefixOf (text "ng " ++ (ref ++ 0x20 :: error)) = true :=
    List.isPrefixOf_iff_prefix.2 (List.prefix_append _ _)
  have hdrop : (text "ng " ++ (ref ++ 0x20 :: error)).drop 3 = ref ++ 0x20 :: error :=
    List.drop_left' (by decide)
  have hne : ref ≠ [] := by
    rintro rfl
    exact absurd h.refs (by decide)
  have hreason : (text "ng " ++ (ref ++ 0x20 :: error)).drop (3 + ref.length + 1) = error := by
    rw [Nat.add_assoc, ← List.drop_drop, hdrop, List.drop_append, List.drop_eq_nil_of_le (by omega),
      Nat.add_sub_cancel_left]
    rfl
  have hlength : (text "ng " ++ (ref ++ 0x20 :: error)).length = 3 + ref.length + 1 + error.length := by
    have hthree : (text "ng ").length = 3 := rfl
    rw [length_append, length_append, length_cons, hthree]
    omega
  have herrorLength := List.length_pos_iff.2 herror
  have hrefLength := List.length_pos_iff.2 hne
  rw [hline, parseStatusLine, if_neg hunpack, if_neg hok, if_pos hstart, hdrop,
    indexOf_unit _ h.space]
  dsimp only
  rw [reject, if_neg ?_, ok_bind, List.take_left' rfl, hreason]
  · rfl
  · simp only [or_eq_true, decide_eq_true_eq, not_or]
    omega

theorem ServedName.lineOk (h : ServedName ref) : LineOk ref :=
  ⟨(Refs.checkRefTextFrom_sound h.checked).2, (Refs.checkRefTextFrom_sound h.checked).1⟩

/-- The line of a status and what it says, when it was written. -/
theorem encodeStatus_ok
    (h : encodeStatus status = .ok frame) (hformed : ∀ error ∈ status.error, WellFormed error) :
    pktText (statusLine status ++ [0x0a]) = .ok frame ∧
      decodeLine (.line (Utf8.encode (statusLine status ++ [0x0a]))) = .ok (statusLine status) ∧
      parseStatusLine (statusLine status) = .ok (.ofStatus status) := by
  obtain ⟨⟨⟩, href, h⟩ := bind_eq_ok.1 h
  have hserved := requireServerRef_ok href
  obtain ⟨ref, error⟩ := status
  cases error with
  | none =>
    have hstart : ∀ u ∈ text "ok ", u.toNat < 0x80 ∧ Refs.isBreak u = false :=
      single_of_all (by decide)
    exact ⟨h, decodeLine_ok (by decide) (hserved.lineOk.append hstart), parseStatusLine_ok hserved⟩
  | some error =>
    obtain ⟨⟨⟩, hreason, h⟩ := bind_eq_ok.1 h
    obtain ⟨hne, hsingle⟩ := requireStatusText_ok hreason
    have hstart : ∀ u ∈ text "ng ", u.toNat < 0x80 ∧ Refs.isBreak u = false :=
      single_of_all (by decide)
    have hrest : LineOk (ref ++ 0x20 :: error) := by
      refine ⟨(Utf8.wellFormed_cut _ _ (by decide)).2 ⟨hserved.lineOk.formed, hformed error rfl⟩, ?_⟩
      intro u hu
      simp only [mem_append, mem_cons] at hu
      obtain hu | rfl | hu := hu
      · exact hserved.lineOk.single u hu
      · decide
      · exact hsingle u hu
    have hline : text "ng " ++ ref ++ text " " ++ error = text "ng " ++ (ref ++ 0x20 :: error) := by
      rw [append_assoc, append_assoc]
      rfl
    refine ⟨h, ?_, parseStatusLine_ng hserved hne⟩
    change decodeLine (.line (Utf8.encode (text "ng " ++ ref ++ text " " ++ error ++ [0x0a]))) =
      .ok (text "ng " ++ ref ++ text " " ++ error)
    rw [hline]
    exact decodeLine_ok (by decide) (hrest.append hstart)

-- The report

theorem packet_ok
    (h : pkt payload = .ok frame) (hentries : budget.entries < maxReceivePackStatusPackets) :
    budget.packet .default (.line payload) =
      .ok { budget with entries := budget.entries + 1 } := by
  obtain ⟨hshort, -⟩ := pkt_ok h
  refine bind_eq_ok.2 ⟨(), reject_eq_ok.2 (decide_eq_false (Nat.not_lt.2 hshort)), ?_⟩
  exact bind_eq_ok.2 ⟨(), reject_eq_ok.2 (decide_eq_false (Nat.not_le.2 hentries)), rfl⟩

/-- The statuses, up to the flush. -/
theorem readStatuses_ok {expected : List Text} {fuel : Nat} {budget : StatusWireBudget}
    {unpack : Text} {before statuses : List ServerRefStatus} {frames : List (List UInt8)}
    {reader : ByteReader} {rest : List UInt8}
    (hframes : List.Forall₂ (fun status frame => encodeStatus status = .ok frame) statuses frames)
    (hformed : ∀ status ∈ statuses, ∀ error ∈ status.error, WellFormed error)
    (hexpected : ∀ status ∈ statuses, status.ref ∈ expected)
    (hnodup : ((before ++ statuses).map (·.ref)).Nodup)
    (hentries : budget.entries + statuses.length ≤ maxReceivePackStatusPackets)
    (hfuel : statuses.length < fuel)
    (hbytes : reader.bytes = frames.flatten ++ flushPkt ++ rest) :
    ∃ after, readStatuses .default expected fuel budget { unpack := some unpack, received := before }
        reader = .ok ({ unpack := some unpack, received := before ++ statuses }, after) ∧
      after.bytes = rest := by
  induction hframes generalizing before budget fuel reader with
  | nil =>
    obtain ⟨fuel, rfl⟩ := Nat.exists_eq_add_one.2 (by omega)
    obtain ⟨after, hread, hafter⟩ := readPkt_flush hbytes
    refine ⟨after, ?_, hafter⟩
    rw [readStatuses, hread, ok_bind, append_nil]
  | @cons status frame statuses frames hframe _ ih =>
    obtain ⟨fuel, rfl⟩ := Nat.exists_eq_succ_of_ne_zero (Nat.ne_of_gt (Nat.zero_lt_of_lt hfuel))
    obtain ⟨hpkt, hdecode, hparse⟩ := encodeStatus_ok hframe (hformed status mem_cons_self)
    rw [flatten_cons, append_assoc, append_assoc] at hbytes
    rw [length_cons] at hentries hfuel
    obtain ⟨after, hread, hafter⟩ := readPkt_line hpkt hbytes
    have hnew : (before.map (·.ref)).contains status.ref = false := by
      rw [List.map_append] at hnodup
      rw [← not_eq_true, contains_iff_mem]
      intro hmem
      exact (List.nodup_append.1 hnodup).2.2 _ hmem _ (List.mem_map_of_mem mem_cons_self) rfl
    have hknown : expected.contains status.ref = true :=
      contains_iff_mem.2 (hexpected status mem_cons_self)
    have hadd : StatusState.add expected { unpack := some unpack, received := before }
        (.ofStatus status) =
          .ok { unpack := some unpack, received := before ++ [status] } := by
      have href : StatusState.addRef expected { unpack := some unpack, received := before } status =
          .ok { unpack := some unpack, received := before ++ [status] } := by
        rw [StatusState.addRef, reject, if_neg (by simp), ok_bind, hknown, reject,
          if_neg (by decide), ok_bind, hnew, reject, if_neg (by decide), ok_bind]
        rfl
      obtain ⟨ref, error⟩ := status
      cases error with
      | none => exact href
      | some error => exact href
    have hlast : before ++ status :: statuses = (before ++ [status]) ++ statuses := by simp
    rw [hlast] at hnodup ⊢
    rw [readStatuses, hread, ok_bind]
    dsimp only
    rw [packet_ok hpkt (by omega), ok_bind, hdecode, ok_bind, hparse, ok_bind, hadd, ok_bind]
    refine ih (fun other hother => hformed other (mem_cons_of_mem _ hother))
      (fun other hother => hexpected other (mem_cons_of_mem _ hother)) hnodup ?_ (by omega)
      (hafter.trans (append_assoc _ _ _).symm)
    dsimp only
    omega

/-- What a report says about the commands of a push. -/
structure ReportOk (commands : List ReceivePackCommand) (unpack : Text)
    (statuses : List ServerRefStatus) : Prop where
  refs : statuses.map (·.ref) = commands.map (·.ref)
  unpackFormed : WellFormed unpack
  formed : ∀ status ∈ statuses, ∀ error ∈ status.error, WellFormed error
  /-- Nothing is published from a pack that is not sound. -/
  refused : unpack ≠ text "ok" → ∀ status ∈ statuses, status.error ≠ none

theorem statusesOf_ok (hnodup : (received.map (·.ref)).Nodup)
    (hmem : ∀ status ∈ statuses, status ∈ received)
    (hrefs : statuses.map (·.ref) = commands.map (·.ref)) :
    statusesOf received commands = .ok statuses := by
  rw [statusesOf]
  induction commands generalizing statuses with
  | nil =>
    rw [List.map_nil, List.map_eq_nil_iff] at hrefs
    rw [hrefs]
    rfl
  | cons command commands ih =>
    cases statuses with
    | nil => cases hrefs
    | cons status statuses =>
      rw [List.map_cons, List.map_cons, List.cons.injEq] at hrefs
      have hstatus := hmem status mem_cons_self
      rw [List.mapM_cons, ← hrefs.1, find?_key hstatus fun _ hother =>
        List.inj_on_of_nodup_map hnodup hother hstatus]
      dsimp only
      rw [ok_bind, ih (fun other hother => hmem other (mem_cons_of_mem _ hother)) hrefs.2,
        ok_bind]
      rfl

theorem finishStatus_ok (h : ReportOk commands unpack statuses)
    (hnodup : (commands.map (·.ref)).Nodup)
    (hatomic : atomic = true → (∀ status ∈ statuses, status.error = none) ∨
      ∀ status ∈ statuses, status.error ≠ none) :
    finishStatus .default commands atomic { unpack := some unpack, received := statuses } =
      .ok { unpack, refs := statuses } := by
  have hlength : statuses.length = commands.length := by
    simpa using congrArg List.length h.refs
  have hrefused : (unpack ≠ text "ok" && statuses.any (·.error = none)) = false := by
    by_cases hunpack : unpack = text "ok"
    · simp [hunpack]
    · rw [Bool.and_eq_false_iff]
      right
      rw [any_eq_false]
      intro status hmem
      simpa using h.refused hunpack status hmem
  have hmixed : (atomic && statuses.any (·.error = none) && statuses.any (·.error ≠ none)) = false := by
    cases atomic with
    | false => rfl
    | true =>
      rw [Bool.true_and, Bool.and_eq_false_iff, any_eq_false, any_eq_false]
      obtain hall | hall := hatomic rfl
      · exact .inr fun status hmem => by simpa using hall status hmem
      · exact .inl fun status hmem => by simpa using hall status hmem
  rw [finishStatus]
  dsimp only
  rw [statusesOf_ok (h.refs ▸ hnodup) (fun status hmem => hmem) h.refs, ok_bind, reject,
    if_neg (by simpa using hlength), ok_bind, hrefused, reject, if_neg Bool.false_ne_true, ok_bind,
    hmixed, reject, if_neg Bool.false_ne_true, ok_bind]
  rfl

theorem requireStreamEnd_ok (h : reader.bytes = []) (context : String) :
    requireStreamEnd reader context = .ok () := by
  obtain ⟨after, hread⟩ := readPkt_end h
  rw [requireStreamEnd, hread, ok_bind]
  rfl

theorem length_le_forall₂
    (h : List.Forall₂ (fun status frame => encodeStatus status = .ok frame) statuses frames)
    (hformed : ∀ status ∈ statuses, ∀ error ∈ status.error, WellFormed error) :
    statuses.length ≤ frames.flatten.length := by
  induction h with
  | nil => exact Nat.zero_le _
  | @cons status frame statuses frames hframe _ ih =>
    have := ih fun other hother => hformed other (mem_cons_of_mem _ hother)
    have := length_pos_of_pkt (encodeStatus_ok hframe (hformed status mem_cons_self)).1
    rw [length_cons, flatten_cons, length_append]
    omega

/-- The client reads the report of the server. -/
theorem parseStatus_ok
    (h : ReportOk commands unpack statuses) (hnodup : (commands.map (·.ref)).Nodup)
    (hcount : commands.length ≤ maxReceivePackCommands)
    (hatomic : atomic = true → (∀ status ∈ statuses, status.error = none) ∨
      ∀ status ∈ statuses, status.error ≠ none)
    (hencoded : encodeReceiveStatus unpack statuses = .ok frames)
    (hchunks : chunks.flatten = frames.flatten) :
    parseStatus .default commands atomic chunks = .ok { unpack, refs := statuses } := by
  obtain ⟨⟨⟩, hunpack, hencoded⟩ := bind_eq_ok.1 hencoded
  obtain ⟨header, hheader, hencoded⟩ := bind_eq_ok.1 hencoded
  obtain ⟨lines, hlines, hencoded⟩ := bind_eq_ok.1 hencoded
  cases hencoded
  have hframes := Fuel.mapM_ok hlines
  obtain ⟨hne, hsingle⟩ := requireStatusText_ok hunpack
  have hlength : statuses.length = commands.length := by
    simpa using congrArg List.length h.refs
  have hbytes : (ByteReader.ofChunks chunks).bytes = header ++ (lines.flatten ++ flushPkt) := by
    rw [bytes_ofChunks, hchunks]
    simp
  obtain ⟨after, hread, hafter⟩ := readPkt_line hheader hbytes
  have hstart : ∀ u ∈ text "unpack ", u.toNat < 0x80 ∧ Refs.isBreak u = false :=
    single_of_all (by decide)
  have hdecode : decodeLine (.line (Utf8.encode (text "unpack " ++ unpack ++ [0x0a]))) =
      .ok (text "unpack " ++ unpack) :=
    decodeLine_ok (by decide) (LineOk.append hstart ⟨h.unpackFormed, hsingle⟩)
  have hfuel : statuses.length < chunks.flatten.length := by
    have := length_le_forall₂ hframes h.formed
    have := length_pos_of_pkt hheader
    rw [← bytes_ofChunks, hbytes, length_append, length_append]
    omega
  have hexpected : ∀ status ∈ statuses, status.ref ∈ commands.map (·.ref) := by
    intro status hmem
    rw [← h.refs]
    exact List.mem_map_of_mem hmem
  have hfew : 1 + statuses.length ≤ maxReceivePackStatusPackets := by
    have : maxReceivePackCommands + 1 ≤ maxReceivePackStatusPackets := by decide
    omega
  obtain ⟨last, hrest, hlast⟩ := @readStatuses_ok (commands.map (·.ref)) chunks.flatten.length
    { entries := 1, inputBytes := 0 } unpack [] statuses lines after [] hframes h.formed hexpected
    (h.refs ▸ hnodup) hfew hfuel (hafter.trans (append_nil _).symm)
  rw [parseStatus, readStatuses, hread, ok_bind]
  dsimp only
  rw [packet_ok hheader (by decide), ok_bind, hdecode, ok_bind, parseStatusLine_unpack hne, ok_bind]
  change (readStatuses .default (commands.map (·.ref)) chunks.flatten.length
    { entries := 1, inputBytes := 0 } { unpack := some unpack, received := [] } after >>= _) = _
  rw [hrest, ok_bind]
  dsimp only
  rw [requireStreamEnd_ok hlast, ok_bind, List.nil_append]
  exact finishStatus_ok h hnodup hatomic

-- The first band

theorem bandPieces_ok {chunk : List UInt8} (h : chunk.length ≤ fuel) :
    (bandPieces fuel chunk).flatten = chunk ∧ ∀ piece ∈ bandPieces fuel chunk, piece ≠ [] := by
  induction fuel generalizing chunk with
  | zero =>
    obtain rfl := List.length_eq_zero_iff.1 (Nat.le_zero.1 h)
    exact ⟨rfl, fun piece hmem => nomatch hmem⟩
  | succ fuel ih =>
    rw [bandPieces]
    by_cases hempty : chunk = []
    · rw [if_pos hempty, hempty]
      exact ⟨rfl, fun piece hmem => nomatch hmem⟩
    · have hpositive : 0 < maxPktPayloadBytes - 1 := by decide
      have hlength := List.length_pos_iff.2 hempty
      have hdrop : (chunk.drop (maxPktPayloadBytes - 1)).length ≤ fuel := by
        rw [List.length_drop]
        omega
      obtain ⟨hflatten, hpieces⟩ := ih hdrop
      rw [if_neg hempty]
      refine ⟨?_, fun piece hmem => ?_⟩
      · rw [flatten_cons, hflatten, List.take_append_drop]
      · obtain rfl | hmem := mem_cons.1 hmem
        · rw [ne_eq, List.take_eq_nil_iff, not_or]
          exact ⟨Nat.ne_of_gt hpositive, hempty⟩
        · exact hpieces piece hmem

theorem flatten_bandPieces (pack : List (List UInt8)) :
    (pack.flatMap fun chunk => bandPieces chunk.length chunk).flatten = pack.flatten := by
  induction pack with
  | nil => rfl
  | cons chunk pack ih =>
    rw [List.flatMap_cons, List.flatten_append, ih, (bandPieces_ok (Nat.le_refl _)).1,
      flatten_cons]

/-- The frames of the first band, up to the flush. -/
theorem readBands_ok {rest : List UInt8}
    (hframes : List.Forall₂ (fun data frame => pkt (1 :: data) = .ok frame) pieces frames)
    (hpieces : ∀ piece ∈ pieces, piece ≠ [])
    (hentries : budget.entries + pieces.length ≤ maxReceivePackStatusPackets)
    (hfuel : pieces.length < fuel)
    (hbytes : reader.bytes = frames.flatten ++ flushPkt ++ rest) :
    ∃ after, readBands .default fuel budget reader = .ok (pieces, after) ∧ after.bytes = rest := by
  induction hframes generalizing budget fuel reader with
  | nil =>
    obtain ⟨fuel, rfl⟩ := Nat.exists_eq_add_one.2 (by omega)
    obtain ⟨after, hread, hafter⟩ := readPkt_flush hbytes
    refine ⟨after, ?_, hafter⟩
    rw [readBands, hread, ok_bind]
  | @cons data frame pieces frames hframe _ ih =>
    obtain ⟨fuel, rfl⟩ := Nat.exists_eq_succ_of_ne_zero (Nat.ne_of_gt (Nat.zero_lt_of_lt hfuel))
    rw [flatten_cons, append_assoc, append_assoc] at hbytes
    rw [length_cons] at hentries hfuel
    obtain ⟨after, hread, hafter⟩ := readPkt_line hframe hbytes
    have hband : bandPayload (1 :: data) = .ok [data] := by
      rw [bandPayload, if_pos rfl, if_neg (hpieces data mem_cons_self)]
    have hleft : ({ budget with entries := budget.entries + 1 } : StatusWireBudget).entries +
        pieces.length ≤ maxReceivePackStatusPackets := by
      dsimp only
      omega
    obtain ⟨last, hrest, hlast⟩ := ih
      (fun other hother => hpieces other (mem_cons_of_mem _ hother)) hleft
      (Nat.lt_of_succ_lt_succ hfuel) (hafter.trans (append_assoc _ _ _).symm)
    refine ⟨last, ?_, hlast⟩
    rw [readBands, hread, ok_bind]
    dsimp only
    rw [packet_ok hframe (by omega), ok_bind, hband, ok_bind, hrest, ok_bind]
    rfl

theorem length_le_frames
    (h : List.Forall₂ (fun data frame => pkt (1 :: data) = .ok frame) pieces frames) :
    pieces.length ≤ frames.flatten.length := by
  induction h with
  | nil => exact Nat.zero_le _
  | cons hframe _ ih =>
    have := length_pos_of_pkt hframe
    rw [length_cons, flatten_cons, length_append]
    omega

/-- The body comes back from its band. -/
theorem sidebandBody_ok {pack : List (List UInt8)} (h : encodePackResponse pack true = .ok response)
    (hcount : response.length ≤ maxReceivePackStatusPackets + 1)
    (hchunks : chunks.flatten = response.flatten) :
    ∃ body, sidebandBody .default chunks = .ok body ∧ body.flatten = pack.flatten := by
  rw [encodePackResponse, if_pos rfl] at h
  obtain ⟨frames, hframes, h⟩ := bind_eq_ok.1 h
  cases h
  have hforall := Fuel.mapM_ok hframes
  have hlength := hforall.length_eq
  rw [length_append] at hcount
  have hbytes : (ByteReader.ofChunks chunks).bytes = frames.flatten ++ flushPkt ++ [] := by
    rw [bytes_ofChunks, hchunks]
    simp
  have hpieces : ∀ piece ∈ pack.flatMap fun chunk => bandPieces chunk.length chunk, piece ≠ [] := by
    intro piece hmem
    obtain ⟨chunk, -, hmem⟩ := List.mem_flatMap.1 hmem
    exact (bandPieces_ok (Nat.le_refl _)).2 piece hmem
  have hfuel : (pack.flatMap fun chunk => bandPieces chunk.length chunk).length <
      chunks.flatten.length + 1 := by
    have := length_le_frames hforall
    rw [← bytes_ofChunks, hbytes, length_append, length_append]
    omega
  have hfew : ({ entries := 0, inputBytes := 0 } : StatusWireBudget).entries +
      (pack.flatMap fun chunk => bandPieces chunk.length chunk).length ≤
        maxReceivePackStatusPackets := by
    rw [List.length_singleton] at hcount
    dsimp only
    omega
  obtain ⟨last, hread, hlast⟩ := readBands_ok hforall hpieces hfew hfuel hbytes
  refine ⟨_, ?_, flatten_bandPieces pack⟩
  rw [sidebandBody, hread, ok_bind]
  dsimp only
  rw [requireStreamEnd_ok hlast, ok_bind]
  rfl

-- The push

/-- Whatever the server answers to a push can be reported. -/
theorem report_ok (commands : List ReceivePackCommand) (outcome : ReceiveOutcome) :
    ReportOk commands (outcome.report commands).1 (outcome.report commands).2 := by
  have hplain : ∀ line : Text, (∀ u ∈ line, u.toNat < 0x80) → WellFormed line := fun line hline =>
    Utf8.wellFormed_of_plain fun u hu => plain_of_lt (hline u hu)
  cases outcome with
  | published refusal =>
    refine ⟨by simp [ReceiveOutcome.report], hplain (text "ok") (ascii_of_all (by decide)), ?_,
      fun hne => absurd rfl hne⟩
    intro status hmem error herror
    obtain ⟨command, -, rfl⟩ := mem_map.1 hmem
    obtain ⟨refusal, -, rfl⟩ := Option.map_eq_some_iff.1 herror
    refine hplain _ (ascii_of_all ?_)
    cases refusal
    all_goals decide
  | unpackFailed =>
    refine ⟨by simp [ReceiveOutcome.report],
      hplain (text "invalid pack or incomplete object closure") (ascii_of_all (by decide)), ?_,
      fun _ => ?_⟩
    · intro status hmem error herror
      obtain ⟨command, -, rfl⟩ := mem_map.1 hmem
      cases herror
      exact hplain _ (ascii_of_all (by decide))
    · intro status hmem
      obtain ⟨command, -, rfl⟩ := mem_map.1 hmem
      exact Option.some_ne_none _

theorem readReport_ok (h : ReportOk prepared.commands unpack statuses)
    (hnodup : (prepared.commands.map (·.ref)).Nodup)
    (hcount : prepared.commands.length ≤ maxReceivePackCommands)
    (hatomic : prepared.atomic = true → (∀ status ∈ statuses, status.error = none) ∨
      ∀ status ∈ statuses, status.error ≠ none)
    (hencoded : encodeReceiveStatus unpack statuses = .ok frames)
    (hpieces : pieces.flatten = frames.flatten)
    (hresponse : encodePackResponse pieces prepared.sideband = .ok response)
    (hpackets : prepared.sideband = true → response.length ≤ maxReceivePackStatusPackets + 1)
    (hchunks : chunks.flatten = response.flatten) :
    readReport .default prepared chunks = .ok { unpack, refs := statuses } := by
  rw [readReport]
  cases hsideband : prepared.sideband with
  | false =>
    rw [hsideband] at hresponse
    cases hresponse
    exact parseStatus_ok h hnodup hcount hatomic hencoded (hchunks.trans hpieces)
  | true =>
    rw [hsideband] at hresponse
    obtain ⟨body, hbody, hflatten⟩ := sidebandBody_ok hresponse (hpackets hsideband) hchunks
    rw [if_pos rfl, hbody, ok_bind]
    exact parseStatus_ok h hnodup hcount hatomic hencoded (hflatten.trans hpieces)

/-- The server reads the commands of a push as they were prepared, for the refs it serves, and
    stands at the first byte of the pack; whatever it then reports, plainly or on the first band,
    the client reads for every command as it was reported. -/
theorem push_roundtrip {request : ReceivePackRequest} {prepared : PreparedRequest}
    (h : prepareRequest request = .ok prepared) :
    (request.advertised = receiveServerCapabilities →
      (∀ command ∈ request.commands, requireServerRef command.ref = .ok () ∧
        ¬ (command.oldOid = zeroOid ∧ command.newOid = zeroOid)) →
      ∀ chunks : List (List UInt8), chunks.flatten = (requestBody prepared).flatten →
        ∃ parsed, parseReceivePackRequest chunks = .ok parsed ∧
          parsed.commands = request.commands ∧ parsed.reportStatus = true ∧
          parsed.reader.bytes = (packChunks prepared).flatten) ∧
    ∀ (outcome : ReceiveOutcome) (frames pieces response chunks : List (List UInt8)),
      (prepared.atomic = true →
        (∀ status ∈ (outcome.report request.commands).2, status.error = none) ∨
          ∀ status ∈ (outcome.report request.commands).2, status.error ≠ none) →
      encodeReceiveStatus (outcome.report request.commands).1 (outcome.report request.commands).2 =
        .ok frames →
      pieces.flatten = frames.flatten →
      encodePackResponse pieces prepared.sideband = .ok response →
      (prepared.sideband = true → response.length ≤ maxReceivePackStatusPackets + 1) →
      chunks.flatten = response.flatten →
      readReport .default prepared chunks = .ok
        { unpack := (outcome.report request.commands).1
          refs := (outcome.report request.commands).2 } := by
  obtain ⟨-, hcount, hnodup, -, -, -, hcommands, -, -⟩ := prepareRequest_ok h
  refine ⟨fun hadvertised hserved chunks => parseReceivePackRequest_ok h hadvertised hserved, ?_⟩
  intro outcome frames pieces response chunks hatomic hencoded hpieces hresponse hpackets hchunks
  have hreport := report_ok request.commands outcome
  rw [← hcommands] at hnodup hcount
  refine readReport_ok ?_ hnodup hcount hatomic hencoded hpieces hresponse hpackets hchunks
  rw [hcommands]
  exact hreport

/-- A branch is created and a tag is deleted. -/
def releasePush : ReceivePackRequest :=
  { commands :=
      [{ oldOid := zeroOid, newOid := List.replicate 40 0x61, ref := text "refs/heads/main" },
        { oldOid := List.replicate 40 0x62, newOid := zeroOid, ref := text "refs/tags/v1" }]
    advertised := receiveServerCapabilities
    atomic := false
    pushOptions := []
    pack := some [[0x50, 0x41], [0x43, 0x4b]] }

/-- Notes, which a client may push but the server does not serve. -/
def notesPush : ReceivePackRequest :=
  { commands :=
      [{ oldOid := zeroOid, newOid := List.replicate 40 0x61, ref := text "refs/notes/commits" }]
    advertised := receiveServerCapabilities
    atomic := false
    pushOptions := []
    pack := some [[0x50, 0x41], [0x43, 0x4b]] }

theorem exists_of_isOk {α : Type} {x : Except GitError α} (h : x.isOk = true) :
    ∃ a, x = .ok a := by
  cases x with
  | error e => cases h
  | ok a => exact ⟨a, rfl⟩

/-- The push is prepared for a server that serves its refs, and its refusal can be reported. -/
theorem releasePush_runs :
    (prepareRequest releasePush).isOk = true ∧
    (∀ command ∈ releasePush.commands, requireServerRef command.ref = .ok () ∧
      ¬ (command.oldOid = zeroOid ∧ command.newOid = zeroOid)) ∧
    (encodeReceiveStatus
      ((ReceiveOutcome.published fun _ => some .staleOldOid).report releasePush.commands).1
      ((ReceiveOutcome.published fun _ => some .staleOldOid).report releasePush.commands).2).isOk =
        true := by
  decide +kernel

/-- The push arrives, and both of its commands are refused. -/
theorem releasePush_refused :
    ∃ prepared frames, prepareRequest releasePush = .ok prepared ∧
      (∃ parsed, parseReceivePackRequest (requestBody prepared) = .ok parsed ∧
        parsed.commands = releasePush.commands ∧ parsed.reportStatus = true ∧
        parsed.reader.bytes = (packChunks prepared).flatten) ∧
      readReport .default prepared frames = .ok
        { unpack :=
            ((ReceiveOutcome.published fun _ => some .staleOldOid).report releasePush.commands).1
          refs :=
            ((ReceiveOutcome.published fun _ => some .staleOldOid).report releasePush.commands).2 } := by
  obtain ⟨hprepared, hserved, hencoded⟩ := releasePush_runs
  obtain ⟨prepared, h⟩ := exists_of_isOk hprepared
  obtain ⟨frames, hframes⟩ := exists_of_isOk hencoded
  obtain ⟨hrequested, -, hnotAtomic⟩ := requested_of_advertised h rfl
  have hatomic : prepared.atomic = false := (prepareRequest_ok h).atomic.trans hnotAtomic
  have hsideband : prepared.sideband = false := by
    rw [(prepareRequest_ok h).sideband, hrequested]
    decide
  obtain ⟨hrequest, hreport⟩ := push_roundtrip h
  refine ⟨prepared, frames, h, hrequest rfl hserved _ rfl, ?_⟩
  refine hreport (.published fun _ => some .staleOldOid) frames frames frames frames
    (fun htrue => ?_) hframes rfl ?_ (fun htrue => ?_) rfl
  · rw [hatomic] at htrue
    cases htrue
  · rw [hsideband]
    rfl
  · rw [hsideband] at htrue
    cases htrue

/-- The client prepares notes for a push that the server does not read. -/
theorem notesPush_not_read :
    ∃ prepared e, prepareRequest notesPush = .ok prepared ∧
      parseReceivePackRequest (requestBody prepared) = .error e := by
  have hok : (match prepareRequest notesPush with
      | .ok prepared => !(parseReceivePackRequest (requestBody prepared)).isOk
      | .error _ => false) = true := by
    decide +kernel
  cases h : prepareRequest notesPush with
  | error e =>
    rw [h] at hok
    cases hok
  | ok prepared =>
    rw [h] at hok
    cases hparsed : parseReceivePackRequest (requestBody prepared) with
    | error e => exact ⟨prepared, e, rfl, hparsed⟩
    | ok parsed =>
      simp [hparsed] at hok
      cases hok

end Kompjutr.Protocol
