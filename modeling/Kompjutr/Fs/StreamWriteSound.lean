/-
  Kompjutr.Fs.StreamWriteSound

  Streaming behind the end of a file (`streamChunks_ok`): each statement puts one piece behind the
  bytes that stand, so the stream as a whole does, however it is cut.
-/
import Kompjutr.Fs.RangeOpsSound
import Kompjutr.Fs.StreamWrite

namespace Kompjutr.Fs

open Chunked (count slice)
open Fuel (ok_bind)
open Objects (Text text)

variable {tables : FsTables} {inode : Nat} {content : List UInt8}

-- The check of the layout

theorem invalidChunks_eq (h : tables.Stores inode content) :
    invalidChunks tables inode content.length = 0 := by
  rw [invalidChunks, List.length_eq_zero_iff, List.filter_eq_nil_iff]
  intro row hrow hinvalid
  obtain ⟨-, hlt, hbytes⟩ := mem_fileRows.1 (h.chunkRows_perm.mem_iff.1 hrow)
  refine of_decide_eq_true hinvalid ?_
  rw [hbytes, Chunked.length_slice]
  generalize chunkSize = c at *
  omega

theorem soundLayout_eq (h : tables.Stores inode content)
    (hsafe : isSafeInteger content.length = true) :
    soundLayout tables inode content.length = true := by
  rw [soundLayout, hsafe, h.describes, invalidChunks_eq h]
  rfl

-- Pieces

/-- What a statement over the chunks leaves alone. -/
structure SameNames (tables after : FsTables) : Prop where
  nodes : after.nodes = tables.nodes
  paths : after.paths = tables.paths
  rev : after.rev = tables.rev

theorem SameNames.trans {middle after : FsTables} (h : SameNames tables middle)
    (hafter : SameNames middle after) : SameNames tables after where
  nodes := hafter.nodes.trans h.nodes
  paths := hafter.paths.trans h.paths
  rev := hafter.rev.trans h.rev

theorem writePiece_ok (h : tables.Stores inode content) {piece : List UInt8} (hpos : piece ≠ [])
    (hfits : content.length % chunkSize + piece.length ≤ chunkSize) :
    ∃ after, writePiece tables inode content.length piece = .ok after ∧
      after.Stores inode (content ++ piece) ∧ SameNames tables after := by
  have hall := Nat.div_add_mod' content.length chunkSize
  have hlength := List.length_pos_of_ne_nil hpos
  have hslice := Chunked.append_slice hfits
  have hlast : content.length / chunkSize * chunkSize < (content ++ piece).length := by
    rw [List.length_append]
    omega
  have hkept : ∀ index, index ≠ content.length / chunkSize → ∀ j < chunkSize,
      content[index * chunkSize + j]? = (content ++ piece)[index * chunkSize + j]? :=
    fun index hindex j hj => (Chunked.append_outside chunkSize_pos hfits hindex hj).symm
  unfold writePiece
  dsimp only
  split
  next hzero =>
    have hempty : slice chunkSize content (content.length / chunkSize) = [] := by
      rw [slice, List.drop_of_length_le (by omega), List.take_nil]
    have hnone : tables.chunks.get (inode, content.length / chunkSize) = none := by
      rw [h (content.length / chunkSize), if_neg (by omega)]
    rw [KeyTable.insert_of_new hnone]
    refine ⟨_, rfl, ?_, ⟨rfl, rfl, rfl⟩⟩
    refine @stores_of_get _ _ _ _ (content ++ piece) (· = content.length / chunkSize) _
      (fun _ => piece) h (fun index => ?_) ?_ hkept
    · rw [KeyTable.get_add]
      exact if_congr (by rw [Prod.mk.injEq, and_iff_right rfl]) rfl rfl
    · rintro index rfl
      rw [hslice, hempty, List.nil_append]
      exact ⟨hlast, rfl⟩
  next hpart =>
    have hstored : content.length / chunkSize * chunkSize < content.length := by omega
    have hwithin : (slice chunkSize content (content.length / chunkSize)).length =
        content.length % chunkSize := by
      have hmod := Nat.mod_lt content.length chunkSize_pos
      rw [Chunked.length_slice]
      generalize chunkSize = c at *
      omega
    refine ⟨_, rfl, ?_, ⟨rfl, rfl, rfl⟩⟩
    refine @stores_of_get _ _ _ _ (content ++ piece) (· = content.length / chunkSize) _
      (fun index => slice chunkSize content index ++ piece) h (fun index => ?_) ?_ hkept
    · rw [KeyTable.get_update]
      by_cases hindex : index = content.length / chunkSize
      · rw [if_pos hindex, hindex, h (content.length / chunkSize), if_pos hstored, Option.map_some,
          if_pos ⟨rfl, hwithin⟩]
      · rw [if_neg hindex]
        simp [hindex]
    · rintro index rfl
      rw [hslice]
      exact ⟨hlast, rfl⟩

-- The stream

theorem safe_of_le {n m : Nat} (h : n ≤ m) (hm : isSafeInteger m = true) : isSafeInteger n = true := by
  rw [isSafeInteger_iff] at hm ⊢
  omega

/-- A chunk of a stream goes behind the file where the file stays within the safe sizes, and is
    refused where it does not. -/
theorem streamChunk_ok (path : Text) (h : tables.Stores inode content) (chunk : List UInt8) :
    (isSafeInteger (content.length + chunk.length : Nat) = true →
      ∃ after, streamChunk path inode tables content.length chunk =
          .ok (after, (content ++ chunk).length) ∧
        after.Stores inode (content ++ chunk) ∧ SameNames tables after) ∧
    (isSafeInteger content.length = true → isSafeInteger (content.length + chunk.length : Nat) = false →
      ∃ error, streamChunk path inode tables content.length chunk = .error error ∧
        error.code = "EFBIG") := by
  induction hn : chunk.length using Nat.strongRecOn generalizing tables content chunk with
  | ind n ih =>
    subst hn
    by_cases hempty : chunk = []
    · rw [streamChunk, dif_pos hempty, hempty, List.append_nil]
      exact ⟨fun _ => ⟨tables, rfl, h, ⟨rfl, rfl, rfl⟩⟩,
        fun hsafe hnotSafe => Bool.noConfusion (hnotSafe.symm.trans hsafe)⟩
    have hpos := pieceLength_pos content.length hempty
    have hle : pieceLength content.length chunk ≤ chunk.length := Nat.min_le_right _ _
    have htake : (chunk.take (pieceLength content.length chunk)).length =
        pieceLength content.length chunk := by
      rw [List.length_take, Nat.min_eq_left hle]
    have hroom : pieceLength content.length chunk ≤ chunkSize - content.length % chunkSize :=
      Nat.min_le_left _ _
    have hmod := Nat.mod_lt content.length chunkSize_pos
    obtain ⟨middle, hpiece, hmiddle, hnames⟩ := @writePiece_ok tables inode content h
      (chunk.take (pieceLength content.length chunk)) (List.ne_nil_of_length_pos (by omega)) (by omega)
    have hrest := @ih (chunk.drop (pieceLength content.length chunk)).length
      (by rw [List.length_drop]; omega) middle (content ++ chunk.take (pieceLength content.length chunk))
      hmiddle (chunk.drop (pieceLength content.length chunk)) rfl
    rw [List.append_assoc, List.take_append_drop, List.length_append, htake, List.length_drop,
      show content.length + pieceLength content.length chunk +
        (chunk.length - pieceLength content.length chunk) = content.length + chunk.length by omega] at hrest
    rw [streamChunk, dif_neg hempty]
    constructor
    · intro hsafe
      have hstep := @safe_of_le (content.length + pieceLength content.length chunk) _ (by omega) hsafe
      obtain ⟨after, hrun, hafter, hlater⟩ := hrest.1 hsafe
      refine ⟨after, ?_, hafter, hnames.trans hlater⟩
      rw [if_neg (by rw [hstep]; exact Bool.false_ne_true), hpiece, ok_bind, hrun]
    · intro hold hnotSafe
      by_cases hstep : isSafeInteger (content.length + pieceLength content.length chunk : Nat) = true
      · obtain ⟨error, hrun, hcode⟩ := hrest.2 hstep hnotSafe
        refine ⟨error, ?_, hcode⟩
        rw [if_neg (by rw [hstep]; exact Bool.false_ne_true), hpiece, ok_bind, hrun]
      · rw [if_pos (by rw [Bool.not_eq_true] at hstep; rw [hstep]; rfl)]
        exact ⟨_, rfl, rfl⟩

theorem streamChunks_ok (path : Text) (h : tables.Stores inode content)
    (hold : isSafeInteger content.length = true) (chunks : List (List UInt8)) :
    (isSafeInteger (content.length + chunks.flatten.length : Nat) = true →
      ∃ after, chunks.foldlM (fun state chunk => streamChunk path inode state.1 state.2 chunk)
          (tables, content.length) = .ok (after, (content ++ chunks.flatten).length) ∧
        after.Stores inode (content ++ chunks.flatten) ∧ SameNames tables after) ∧
    (isSafeInteger (content.length + chunks.flatten.length : Nat) = false →
      ∃ error, chunks.foldlM (fun state chunk => streamChunk path inode state.1 state.2 chunk)
        (tables, content.length) = .error error ∧ error.code = "EFBIG") := by
  induction chunks generalizing tables content with
  | nil =>
    rw [List.flatten_nil, List.append_nil]
    exact ⟨fun _ => ⟨tables, rfl, h, ⟨rfl, rfl, rfl⟩⟩,
      fun hnotSafe => Bool.noConfusion (hnotSafe.symm.trans hold)⟩
  | cons chunk chunks ih =>
    obtain ⟨hok, hrefused⟩ := streamChunk_ok path h chunk
    rw [List.flatten_cons, List.length_append, ← Nat.add_assoc, List.foldlM_cons]
    by_cases hfirst : isSafeInteger (content.length + chunk.length : Nat) = true
    · obtain ⟨middle, hrun, hmiddle, hnames⟩ := hok hfirst
      obtain ⟨hgoes, hfails⟩ := @ih middle (content ++ chunk) hmiddle
        (by rw [List.length_append]; exact hfirst)
      rw [List.length_append, List.append_assoc] at hgoes
      rw [List.length_append] at hfails
      rw [hrun, ok_bind, List.length_append]
      refine ⟨fun hsafe => ?_, hfails⟩
      obtain ⟨after, hafterRun, hafter, hlater⟩ := hgoes hsafe
      exact ⟨after, hafterRun, hafter, hnames.trans hlater⟩
    · rw [Bool.not_eq_true] at hfirst
      obtain ⟨error, hrun, hcode⟩ := hrefused hold hfirst
      refine ⟨fun hsafe => ?_, fun _ => ⟨error, ?_, hcode⟩⟩
      · rw [safe_of_le (Nat.le_add_right _ _) hsafe] at hfirst
        cases hfirst
      · rw [hrun]
        rfl

end Kompjutr.Fs
