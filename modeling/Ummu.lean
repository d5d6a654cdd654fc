import Ummu.BitSearch
import Ummu.Grant
import Ummu.Refinement
import Ummu.LinkTree
import Ummu.Revocable
import Ummu.PullUp
import Ummu.CplPoll
import Ummu.Completion
import Ummu.Modes
import Ummu.Teardown
import Ummu.SegMap
import Ummu.LockSafe
import Ummu.PlbiWait
import Ummu.GrantUndo
import Ummu.Invalidate
import Ummu.ThreadLeases
import Ummu.ProcessRuns
