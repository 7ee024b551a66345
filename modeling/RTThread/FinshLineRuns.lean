import RTThread.FinshLexerEnds
import RTThread.FinshLines
import RTThread.FinshParserEnds

namespace RTThread

open FinshLexer

/-- The calls of `finsh_token_token` on a line come to its end after at most one token for each of its
characters, they give only `finsh_token_type_eof` from then on, and the parser returns on these tokens. -/
def LexesAndParses (S : FinshSymbols) (vars : FinshVars) (line : List UInt8) : Prop :=
  ∃ n ≤ line.length, ∃ tokens t, lexerRun (n + 1) (finshTokenInit line) = some (tokens ++ [.eof], t) ∧
    (∀ m, lexerRun m t = some (List.replicate m .eof, t)) ∧
    ∃ root s, finshParserRun S vars (tokens ++ [.eof]) = some (root, s)

end RTThread
