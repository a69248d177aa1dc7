import EveryParse.Chars.Census
import EveryParse.Grammar.Script
import EveryParse.Proofs.Backtracking
import EveryParse.Proofs.Decompositions
import EveryParse.Proofs.Discipline
import EveryParse.Proofs.Ended
import EveryParse.Proofs.FirstRun
import EveryParse.Proofs.Handles
import EveryParse.Proofs.Independence
import EveryParse.Proofs.IntegerLists
import EveryParse.Proofs.Invocations
import EveryParse.Proofs.Levels
import EveryParse.Proofs.Lifecycle
import EveryParse.Proofs.Nesting
import EveryParse.Proofs.Positions
import EveryParse.Proofs.Remaining
import EveryParse.Proofs.Repetition
import EveryParse.Proofs.Sequences
import EveryParse.Proofs.Suffix
import EveryParse.Proofs.Truncation
import EveryParse.Proofs.Uninvoked
import EveryParse.Proofs.Unrolling
import EveryParse.Proofs.Words
