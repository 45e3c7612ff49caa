import LineSearch.Main
import LineSearch.Proofs.Match.Alternation
import LineSearch.Proofs.Match.Completeness
import LineSearch.Proofs.Match.Contents
import LineSearch.Proofs.Match.Grouping
import LineSearch.Proofs.Match.Leniency
import LineSearch.Proofs.Match.Limit
import LineSearch.Proofs.Match.Repetition
import LineSearch.Proofs.Match.Rounds
import LineSearch.Proofs.Match.Shift
import LineSearch.Proofs.Match.Unanchoring
import LineSearch.Proofs.Match.Vetting
import LineSearch.Proofs.Pattern.Branches
import LineSearch.Proofs.Program.Transcript
import LineSearch.Proofs.Search.Interleaving
import LineSearch.Proofs.Search.Rereading
import LineSearch.Proofs.Settings.Unknown
import LineSearch.Proofs.Walk.Exactness
import LineSearch.Proofs.Walk.Hidden
