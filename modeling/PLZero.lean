import PLZero.Main
import PLZero.Proofs.Correctness
import PLZero.Proofs.RoundTrip
import PLZero.Proofs.Limits
import PLZero.Proofs.Misuse.Compilation
import PLZero.Proofs.Layout.Segments
import PLZero.Proofs.Patching.Relocation
import PLZero.Proofs.Renaming.Sources
import PLZero.Proofs.Grammar.Refusal
import PLZero.Proofs.Lexing.Printing
import PLZero.Proofs.Lexing.Splitting
import PLZero.Proofs.Heights.Trees
import PLZero.Proofs.Numerals
import PLZero.Proofs.Words
import PLZero.Proofs.Frames
import PLZero.Proofs.Sparing
import PLZero.Proofs.Exchange
import PLZero.Proofs.ReadBack
import PLZero.Proofs.Calls
import PLZero.Proofs.Delimiting
import PLZero.Proofs.Dump
import PLZero.Proofs.Scopes
import PLZero.Proofs.Backtrace
import PLZero.Proofs.Outline.Sources
