import ContextFree.Derives
import ContextFree.Folder
import ContextFree.Main
import ContextFree.Proofs.Acceptance
import ContextFree.Proofs.Ambiguity
import ContextFree.Recognizer
import ContextFree.Proofs.Leftmost
import ContextFree.Proofs.Copies
import ContextFree.Proofs.Counting
import ContextFree.Proofs.Lowering
import ContextFree.Proofs.Sampling
import ContextFree.Proofs.Spelling
import ContextFree.Proofs.Writing
import ContextFree.Proofs.Stepping
import ContextFree.Proofs.Provenance
import ContextFree.Proofs.Conservation
import ContextFree.Proofs.Placement
import ContextFree.Proofs.Erasers
import ContextFree.Proofs.Searching
import ContextFree.Proofs.Corners
import ContextFree.Proofs.Building
import ContextFree.Proofs.Waiting
import ContextFree.Proofs.Paths
import ContextFree.Proofs.Walking
import ContextFree.Proofs.Locality
import ContextFree.Proofs.Judging
import ContextFree.Proofs.Erasing
import ContextFree.Proofs.Choosing
import ContextFree.Proofs.Heights
import ContextFree.Proofs.Sweeping
import ContextFree.Proofs.Drafting
import ContextFree.Proofs.Steering
import ContextFree.Proofs.Quoting
import ContextFree.Proofs.Lexing
import ContextFree.Proofs.Spacing
import ContextFree.Proofs.Faults
import ContextFree.Proofs.Respelling
