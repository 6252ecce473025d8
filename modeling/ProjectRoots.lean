import ProjectRoots.Disk.Survey
import ProjectRoots.Event.Notice
import ProjectRoots.Feed
import ProjectRoots.Proofs.Coverage.Seeking
import ProjectRoots.Proofs.Dependent.Counts
import ProjectRoots.Proofs.Dependent.Titles
import ProjectRoots.Proofs.Filesystem
import ProjectRoots.Proofs.Relocation
import ProjectRoots.Proofs.Url.Above
import ProjectRoots.Proofs.Url.Grammar
import ProjectRoots.Proofs.Watch.Answered
import ProjectRoots.Proofs.Watch.Creation
import ProjectRoots.Proofs.Watch.Delay
import ProjectRoots.Proofs.Watch.Interference
import ProjectRoots.Proofs.Watch.Outwards
import ProjectRoots.Proofs.Watch.Pumped
import ProjectRoots.Proofs.Watch.Steady
import ProjectRoots.Proofs.Written
