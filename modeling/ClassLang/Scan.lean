import ClassLang.Diagnostic
import ClassLang.Lexeme

/-!
Scanning. Every piece of a source that is a token is kept with the offset where
it starts, and every malformed piece is reported there; scanning goes on after
either, so one pass finds all lexical errors.
-/

namespace ClassLang

/-- A piece and the byte of the source at which it starts. -/
structure PlacedPiece where
  piece : Piece
  offset : Nat
deriving DecidableEq

namespace PlacedPiece

/-- Lay pieces one after the other, the first at `offset`. -/
def layOut (offset : Nat) : List Piece → List PlacedPiece
  | [] => []
  | piece :: rest => ⟨piece, offset⟩ :: layOut (offset + Text.byteLength piece.text) rest

def token? (placed : PlacedPiece) : Option Token :=
  placed.piece.lexeme.kind?.map (⟨·, placed.offset⟩)

def diagnostic? (placed : PlacedPiece) : Option Diagnostic :=
  placed.piece.lexeme.error?.map (⟨·.message, placed.offset⟩)

end PlacedPiece

/-- What scanning a source gives: its tokens and the reports of its lexical
errors, both in the order of the source. -/
structure Scan where
  tokens : List Token
  diagnostics : List Diagnostic
deriving DecidableEq

def Scan.ofPlaced (pieces : List PlacedPiece) : Scan :=
  ⟨pieces.filterMap PlacedPiece.token?, pieces.filterMap PlacedPiece.diagnostic?⟩

def scan (source : String) : Scan :=
  .ofPlaced (PlacedPiece.layOut 0 (Piece.all source.toList))

end ClassLang
