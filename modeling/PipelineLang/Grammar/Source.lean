import PipelineLang.Grammar.Program
import PipelineLang.Problem
import PipelineLang.Token.Lexer

/-! A source text as a program, with all that is wrong in it. -/

namespace PipelineLang

/-- A program may be there even when the text is wrong: then its wrong parts stand as failed. -/
structure Parsed where
  program : Option Program
  findings : List Finding

namespace Parsed

def failure (source : String) (lexemes : List Lexeme) (index : Nat) : Finding :=
  match lexemes[index]? with
  | some lexeme => ⟨lexeme.span, .unexpected lexeme.text⟩
  | none => ⟨.endOf source.utf8ByteSize, .unexpectedEnd⟩

def ofSource (source : String) : Parsed :=
  let scan := Scan.ofSource source
  let faults := scan.faults.map fun (span, fault) => Finding.mk span (.lexical fault)
  match Rule.program (.ofLexemes scan.lexemes) .empty with
  | (some (program, _), trail) =>
    ⟨some program, faults ++ trail.reported.map (failure source scan.lexemes)⟩
  | (none, trail) => ⟨none, faults ++ trail.atEnd.map (failure source scan.lexemes)⟩

end Parsed

end PipelineLang
